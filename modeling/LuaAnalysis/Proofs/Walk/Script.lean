import LuaAnalysis.Proofs.Symbol.ScopeTree
import LuaAnalysis.Walk.Visit

/-!
# What a tree does in every pass

Which scopes a walk opens, what it declares in them, and which names it reads, writes and loads in
which order can be read off the tree alone: only the visible locals matter, and those are lexical.
`trail` computes all of this without a walk. What becomes of a name or of a load is left open; that
is where passes differ.
-/

namespace LuaAnalysis

/-- A call that loads a file: how, which module, where. -/
structure LoadCall where
  kind : LoadKind
  module : String
  range : TextRange
deriving DecidableEq, Repr, Inhabited

/-- What a walk does with a name or a module. -/
inductive Event where
  /-- A name is read, at top level or in a function. The target of `x = x or default` is exempt from
  being defined. -/
  | read (name : String) (range : TextRange) (binding : Option DeclKey) (exempt top : Bool)
  | write (name : String) (range : TextRange) (binding : Option DeclKey)
  /-- A member of `_G` is written. -/
  | writeRoot (name : String) (range : TextRange)
  | load (call : LoadCall)
deriving DecidableEq, Repr, Inhabited

/-- The scopes that a walk opens inside the current one, and what it does there. -/
structure Trail where
  scopes : List ScopeTree := []
  events : List Event := []

namespace Trail

instance : Append Trail :=
  ⟨fun a b => ⟨a.scopes ++ b.scopes, a.events ++ b.events⟩⟩

/-- The trail of a single event. -/
def event (e : Event) : Trail :=
  { events := [e] }

/-- The trail of what is told in a scope of its own. -/
def inScope (t : Trail) (kind : ScopeKind) (range : TextRange) (ds : List Declaration) : Trail :=
  { t with scopes := [.node kind range (Locals.declareAll {} ds) t.scopes] }

@[simp] theorem append_scopes {a b : Trail} : (a ++ b).scopes = a.scopes ++ b.scopes := rfl

@[simp] theorem append_empty (a : Trail) : a ++ ({} : Trail) = a := by
  obtain ⟨scopes, events⟩ := a
  change Trail.mk (scopes ++ []) (events ++ []) = _
  simp

@[simp] theorem empty_append {a : Trail} : ({} : Trail) ++ a = a := rfl

theorem append_assoc {a b c : Trail} : a ++ b ++ c = a ++ (b ++ c) := by
  change Trail.mk (a.scopes ++ b.scopes ++ c.scopes) (a.events ++ b.events ++ c.events) = _
  rw [List.append_assoc, List.append_assoc]
  rfl

end Trail

/-! ## Where something stands -/

/-- What the place of an expression tells about names. -/
structure Lexical where
  file : FileId
  imports : ImportsConfig
  /-- The visible locals, the innermost and latest first. -/
  bindings : List Declaration := []
  selfTarget : Option String := none
  /-- Whether it stands outside every function body. -/
  top : Bool := true

namespace Lexical

def lookup (c : Lexical) (name : String) : Option DeclKey :=
  c.bindings.lookup name

def declare (c : Lexical) (ds : List Declaration) : Lexical :=
  { c with bindings := ds.reverse ++ c.bindings }

theorem declare_append (c : Lexical) {ds ds' : List Declaration} :
    c.declare (ds ++ ds') = (c.declare ds).declare ds' := by
  simp [declare]

theorem lookup_declare {c : Lexical} {d : Declaration} {name : String} :
    (c.declare [d]).lookup name = if d.1 = name then some d.2 else c.lookup name := by
  obtain ⟨n, k⟩ := d
  simp only [lookup, declare, List.reverse_singleton, List.singleton_append, List.lookup_cons]
  by_cases h : n = name
  · simp [h]
  · have h' : (name == n) = false := by simpa using fun e : name = n => h e.symm
    simp [h, h']

def withSelfTarget (c : Lexical) (target : Option String) : Lexical :=
  { c with selfTarget := target }

def inFunction (c : Lexical) : Lexical :=
  { c with selfTarget := none, top := false }

/-- A read of a name, an event unless a scope declares the name. -/
def read (c : Lexical) (name : String) (range : TextRange) : Trail :=
  .event (.read name range (c.lookup name) (c.selfTarget == some name) c.top)

/-- A write to a name; it defines a global unless a scope declares the name. -/
def write (c : Lexical) (name : String) (range : TextRange) : Trail :=
  .event (.write name range (c.lookup name))

/-- The load that a call is, unless the name of the load function is declared. -/
def loadOf? (c : Lexical) (func : Exp) (args : List Exp) : Option (String × LoadKind × String) := do
  let name ← func.asName?
  let load ← LoadKind.ofFunction? c.imports name
  if (c.lookup name).isSome then none
  let module ← (← args.head?).unparen.asString?
  return (name, load, module)

def loadFunction (c : Lexical) (name : String) (range : TextRange) : Trail :=
  if Builtin.isName name then c.read name range else {}

/-- A member of `_G` is written as a global of the root. -/
def writeMember (c : Lexical) (base : Name) (path : List Name) (key : Name) : Trail :=
  if base.text == "_G" && path.isEmpty then c.read base.text base.range ++ .event
    (.writeRoot key.text key.range)
  else c.read base.text base.range

def writeFunction (c : Lexical) (name : FunctionName) : Trail :=
  match name.more ++ name.method.toList with
  | [] => c.write name.first.text name.first.range
  | key :: rest => c.writeMember name.first rest key

theorem scopes_loadFunction (c : Lexical) {name : String} {range : TextRange} :
    (c.loadFunction name range).scopes = [] := by
  unfold loadFunction
  split <;> rfl

theorem scopes_writeMember (c : Lexical) (base : Name) (path : List Name) (key : Name) :
    (c.writeMember base path key).scopes = [] := by
  unfold writeMember
  split <;> rfl

theorem scopes_writeFunction (c : Lexical) (name : FunctionName) :
    (c.writeFunction name).scopes = [] := by
  unfold writeFunction
  split
  · rfl
  · exact c.scopes_writeMember ..

end Lexical

/-! ## Declarations -/

def Name.declaration (n : Name) (file : FileId) : Declaration :=
  (n.text, ⟨file, n.range⟩)

/-- What a statement declares for those that follow it. -/
def Stat.declares (file : FileId) : Stat → List Declaration
  | .locals _ names _ => names.map (·.name.declaration file)
  | .localFunction _ name _ => [name.declaration file]
  | _ => []

def Block.declares (b : Block) (file : FileId) : List Declaration :=
  b.stats.flatMap (Stat.declares file)

/-! ## Trees -/

mutual

/-- What a walk tells of an expression, in order. -/
def Exp.trail (c : Lexical) : Exp → Trail
  | .name range text => c.read text range
  | .function _ body => body.trail c
  | .table _ fields => Field.trails c fields
  | .index _ obj key _ =>
    match key.asString? with
    | some _ => obj.trail c
    | none => obj.trail c ++ key.trail c
  | .call range func args =>
    match c.loadOf? func args with
    | some (name, load, module) =>
      c.loadFunction name func.range ++ (Exp.trails c args ++ .event (.load ⟨load, module, range⟩))
    | none => func.trail c ++ Exp.trails c args
  | .methodCall _ obj _ args => obj.trail c ++ Exp.trails c args
  | .binary _ _ lhs rhs => lhs.trail c ++ rhs.trail c
  | .unary _ _ operand => operand.trail c
  | .paren _ inner => inner.trail c
  | .nil _ | .bool _ _ | .vararg _ | .number _ _ | .string _ _ => {}

def Exp.trails (c : Lexical) : List Exp → Trail
  | [] => {}
  | e :: es => e.trail c ++ Exp.trails c es

def Field.trails (c : Lexical) : List Field → Trail
  | [] => {}
  | .named _ value :: rest => value.trail c ++ Field.trails c rest
  | .keyed key value :: rest => key.trail c ++ (value.trail c ++ Field.trails c rest)
  | .positional value :: rest => value.trail c ++ Field.trails c rest

def FunctionBody.trail (c : Lexical) : FunctionBody → Trail
  | ⟨range, params, _, block⟩ =>
    let ds := params.map (·.declaration c.file)
    (block.trail (c.inFunction.declare ds)).inScope .function range (ds ++ block.declares c.file)

def Block.trail (c : Lexical) : Block → Trail
  | ⟨_, stats, ret⟩ =>
    Stat.trails c stats ++ ReturnStat.trail? (c.declare (stats.flatMap (Stat.declares c.file))) ret

def ReturnStat.trail? (c : Lexical) : Option ReturnStat → Trail
  | none => {}
  | some ret => ret.trail c

def ReturnStat.trail (c : Lexical) : ReturnStat → Trail
  | ⟨_, values⟩ => Exp.trails c values

def Stat.trails (c : Lexical) : List Stat → Trail
  | [] => {}
  | s :: ss => s.trail c ++ Stat.trails (c.declare (s.declares c.file)) ss

def Stat.trail (c : Lexical) : Stat → Trail
  | .locals _ names values =>
    let name? := match names with
      | [n] => some n.name.text
      | _ => none
    Exp.trails (c.withSelfTarget (WalkM.selfTarget? name? values)) values
  | .localFunction _ name body => body.trail (c.declare [name.declaration c.file])
  | .function _ name body => c.writeFunction name ++ body.trail c
  | .assign _ targets values =>
    let name? := match targets with
      | [t] => t.asName?
      | _ => none
    Exp.trails (c.withSelfTarget (WalkM.selfTarget? name? values)) values ++
    Exp.targetTrails c targets
  | .call _ e => e.trail c
  | .doBlock _ block => (block.trail c).inScope .block block.range (block.declares c.file)
  | .whileLoop _ cond block =>
    cond.trail c ++ (block.trail c).inScope .loop block.range (block.declares c.file)
  | .repeatLoop _ block cond =>
    (block.trail c ++ cond.trail (c.declare (block.declares c.file))).inScope .loop
    (block.range.cover cond.range)
      (block.declares c.file)
  | .ifChain _ clauses orElse => Clause.trails c clauses ++ Block.elseTrail c orElse
  | .numericFor _ var first limit step block =>
    let ds := [var.declaration c.file]
    first.trail c ++ (limit.trail c ++ (Exp.trail? c step ++
      (block.trail (c.declare ds)).inScope .loop block.range (ds ++ block.declares c.file)))
  | .genericFor _ names values block =>
    let ds := names.map (·.declaration c.file)
    Exp.trails c values ++ (block.trail (c.declare ds)).inScope .loop block.range
    (ds ++ block.declares c.file)
  | .empty _ | .breakLoop _ | .goto _ _ | .label _ _ => {}

def Exp.trail? (c : Lexical) : Option Exp → Trail
  | none => {}
  | some e => e.trail c

def Exp.targetTrails (c : Lexical) : List Exp → Trail
  | [] => {}
  | .name range text :: ts => c.write text range ++ Exp.targetTrails c ts
  | .index range obj key dotted :: ts =>
    (match WalkM.splitChain? (.index range obj key dotted) with
      | some (base, path, last) => c.writeMember base path last
      | none => obj.trail c ++ key.trail c) ++ Exp.targetTrails c ts
  | t :: ts => t.trail c ++ Exp.targetTrails c ts

def Clause.trails (c : Lexical) : List Clause → Trail
  | [] => {}
  | ⟨cond, block⟩ :: rest =>
    cond.trail c ++
    ((block.trail c).inScope .branch block.range (block.declares c.file) ++ Clause.trails c rest)

def Block.elseTrail (c : Lexical) : Option Block → Trail
  | none => {}
  | some block => (block.trail c).inScope .branch block.range (block.declares c.file)

end

namespace Chunk

def trail (chunk : Chunk) (file : FileId) (imports : ImportsConfig) : Trail :=
  chunk.block.trail { file, imports }

/-- The scopes of a file as its tree gives them. -/
def scopeTree (chunk : Chunk) (file : FileId) (imports : ImportsConfig) : ScopeTree :=
  .node .function chunk.range (Locals.declareAll {} (chunk.block.declares file))
    (chunk.trail file imports).scopes

end Chunk

end LuaAnalysis
