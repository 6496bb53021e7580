import LuaAnalysis.Proofs.Tree.Sites
import LuaAnalysis.Proofs.Walk.Script

/-!
# Names where they stand in a text

Lua binds names by the text alone. `mentions` lists the names that a tree reads, writes and
declares, in the order in which they are run, each with the local declaration that it is bound to.
The visible locals are passed along as a list (`Visible`), so that the rules of the language are the
equations here: the names of a `local` statement are visible after its values, the name of a `local
function` already in its body, parameters and loop variables in the block and not before it, and the
locals of a `repeat` block in its condition. Neither scopes with numbers nor loads nor other files
play a part.

`Reports` says what a walk has to announce for a mention.
-/

namespace LuaAnalysis

/-- A name at a place, with the local declaration that it is bound to. One that is bound to none is
free. -/
structure Mention where
  name : String
  range : TextRange
  role : NameRole
  binding : Option DeclKey := none
deriving DecidableEq, Repr, Inhabited

/-- A member of `_G` that is written is a global that is written. -/
def Name.global (n : Name) : Mention :=
  { name := n.text, range := n.range, role := .write }

/-- The locals that are visible at a place of a file, the innermost and latest first. -/
structure Visible where
  file : FileId
  locals : List Declaration := []

namespace Visible

def declare (v : Visible) (ds : List Declaration) : Visible :=
  { v with locals := ds.reverse ++ v.locals }

def read (v : Visible) (n : Name) : Mention :=
  { name := n.text, range := n.range, role := .read, binding := v.locals.lookup n.text }

def write (v : Visible) (n : Name) : Mention :=
  { name := n.text, range := n.range, role := .write, binding := v.locals.lookup n.text }

/-- A declaration is bound to itself. -/
def declaring (v : Visible) (n : Name) : Mention :=
  { name := n.text, range := n.range, role := .declaration, binding := some ⟨v.file, n.range⟩ }

end Visible

def Lexical.visible (c : Lexical) : Visible :=
  { file := c.file, locals := c.bindings }

/-- The name of a function statement: a name is written, and the first segment of a longer one is
read. -/
def FunctionName.mentions (v : Visible) (n : FunctionName) : List Mention :=
  match n.more ++ n.method.toList with
  | [] => [v.write n.first]
  | [key] => v.read n.first :: if n.first.text = "_G" then [key.global] else []
  | _ :: _ :: _ => [v.read n.first]

def Exp.rootKey? : Exp → Exp → Option Name
  | .name _ base, .string range text => if base = "_G" then some ⟨text, range⟩ else none
  | _, _ => none

mutual

def Exp.mentions (v : Visible) : Exp → List Mention
  | .name range text => [v.read ⟨text, range⟩]
  | .function _ body => body.mentions v false
  | .table _ fields => Field.mentions v fields
  | .index _ obj key _ => obj.mentions v ++ key.mentions v
  | .call _ func args => func.mentions v ++ Exp.listMentions v args
  | .methodCall _ obj _ args => obj.mentions v ++ Exp.listMentions v args
  | .binary _ _ lhs rhs => lhs.mentions v ++ rhs.mentions v
  | .unary _ _ operand => operand.mentions v
  | .paren _ inner => inner.mentions v
  | .nil _ | .bool _ _ | .vararg _ | .number _ _ | .string _ _ => []

def Exp.listMentions (v : Visible) : List Exp → List Mention
  | [] => []
  | e :: es => e.mentions v ++ Exp.listMentions v es

def Field.mentions (v : Visible) : List Field → List Mention
  | [] => []
  | .named _ value :: rest => value.mentions v ++ Field.mentions v rest
  | .keyed key value :: rest => key.mentions v ++ (value.mentions v ++ Field.mentions v rest)
  | .positional value :: rest => value.mentions v ++ Field.mentions v rest

def FunctionBody.mentions (v : Visible) (isMethod : Bool) : FunctionBody → List Mention
  | ⟨_, params, _, block⟩ =>
    (writtenParams isMethod params).map v.declaring ++ block.mentions
    (v.declare (params.map (·.declaration v.file)))

def Block.mentions (v : Visible) : Block → List Mention
  | ⟨_, stats, ret⟩ =>
    Stat.listMentions v stats ++ ReturnStat.mentions?
    (v.declare (stats.flatMap (Stat.declares v.file))) ret

def ReturnStat.mentions? (v : Visible) : Option ReturnStat → List Mention
  | none => []
  | some ret => ret.mentions v

def ReturnStat.mentions (v : Visible) : ReturnStat → List Mention
  | ⟨_, values⟩ => Exp.listMentions v values

/-- What a statement declares is visible in the statements after it. -/
def Stat.listMentions (v : Visible) : List Stat → List Mention
  | [] => []
  | s :: ss => s.mentions v ++ Stat.listMentions (v.declare (s.declares v.file)) ss

def Stat.mentions (v : Visible) : Stat → List Mention
  | .locals _ names values => Exp.listMentions v values ++ names.map fun n => v.declaring n.name
  | .localFunction _ name body =>
    v.declaring name :: body.mentions (v.declare [name.declaration v.file]) false
  | .function _ name body => name.mentions v ++ body.mentions v name.method.isSome
  | .assign _ targets values => Exp.listMentions v values ++ Exp.targetMentions v targets
  | .call _ e => e.mentions v
  | .doBlock _ block => block.mentions v
  | .whileLoop _ cond block => cond.mentions v ++ block.mentions v
  | .repeatLoop _ block cond =>
    block.mentions v ++ cond.mentions (v.declare (block.declares v.file))
  | .ifChain _ clauses orElse => Clause.mentions v clauses ++ Block.elseMentions v orElse
  | .numericFor _ var first limit step block =>
    first.mentions v ++ (limit.mentions v ++ (Exp.mentions? v step ++
      (v.declaring var :: block.mentions (v.declare [var.declaration v.file]))))
  | .genericFor _ names values block =>
    Exp.listMentions v values ++
      (names.map v.declaring ++ block.mentions (v.declare (names.map (·.declaration v.file))))
  | .empty _ | .breakLoop _ | .goto _ _ | .label _ _ => []

def Exp.mentions? (v : Visible) : Option Exp → List Mention
  | none => []
  | some e => e.mentions v

/-- The targets of an assignment: names are written, and the table and the key of a member are
read. -/
def Exp.targetMentions (v : Visible) : List Exp → List Mention
  | [] => []
  | .name range text :: ts => v.write ⟨text, range⟩ :: Exp.targetMentions v ts
  | .index _ obj key _ :: ts =>
    obj.mentions v ++
    (key.mentions v ++ ((Exp.rootKey? obj key).toList.map Name.global ++ Exp.targetMentions v ts))
  | t :: ts => t.mentions v ++ Exp.targetMentions v ts

def Clause.mentions (v : Visible) : List Clause → List Mention
  | [] => []
  | ⟨cond, block⟩ :: rest => cond.mentions v ++ (block.mentions v ++ Clause.mentions v rest)

def Block.elseMentions (v : Visible) : Option Block → List Mention
  | none => []
  | some block => block.mentions v

end

def Chunk.mentions (chunk : Chunk) (file : FileId) : List Mention :=
  chunk.block.mentions { file }

variable {x : FileIndex} {f : FileId} {v : Visible} {rest : List Name} {base : Name}
  {range : TextRange}

namespace FileIndex

def mentions (x : FileIndex) (f : FileId) : List Mention :=
  match (x.get? f).bind fun source => source.source.tree.toOption with
  | some chunk => chunk.mentions f
  | none => []

variable {source : SourceFile}

theorem mentions_of_ok {chunk : Chunk} (hfile : x.get? f = some source)
    (htree : source.source.tree = .ok chunk) : x.mentions f = chunk.mentions f := by
  simp [mentions, hfile, htree, Except.toOption]

theorem mentions_of_error {e : SyntaxError} (hfile : x.get? f = some source)
    (htree : source.source.tree = .error e) : x.mentions f = [] := by
  simp [mentions, hfile, htree, Except.toOption]

theorem mentions_of_none (hfile : x.get? f = none) : x.mentions f = [] := by
  simp [mentions, hfile]

/-- A file writes the name at the place, where no local binds it. -/
def Assigns (x : FileIndex) (name : String) (d : DeclKey) : Prop :=
  { name, range := d.range, role := .write : Mention } ∈ x.mentions d.file

/-- An announced name reports a mention in the file `f`. A bound one comes with the place of its
declaration, as a local. A free one is no local, and if it has a declaration, that is a place where
a file writes the name free. -/
structure Reports (x : FileIndex) (f : FileId) (u : Mention) (o : Occurrence) : Prop where
  name : o.name = u.name
  file : o.file = f
  range : o.range = u.range
  isRead : o.role = .read ↔ u.role = .read
  bound : ∀ d, u.binding = some d → o.role = u.role ∧ o.declaration = some d ∧
    o.symbolClass.isLocal = true
  free : u.binding = none → o.symbolClass.isLocal = false ∧ ∀ d, o.declaration = some d →
    x.Assigns u.name d

end FileIndex

theorem Variable.isLocal_classIn {v : Variable} {function : FunctionId} :
    (v.classIn function).isLocal = v.isLocal := by
  unfold classIn
  repeat' split
  all_goals simp_all [SymbolClass.isLocal]

/-! ## Chains of members -/

theorem FunctionName.mentions_cons {name : FunctionName} {key : Name}
    (h : name.more ++ name.method.toList = key :: rest) :
    name.mentions v = v.read name.first :: if name.first.text == "_G" &&
      rest.isEmpty then [key.global] else [] := by
  unfold FunctionName.mentions
  rw [h]
  cases rest <;> simp

namespace Exp

variable {e : Exp}

theorem memberChain?_ne_nil : e.memberChain? ≠ some [] := by
  fun_cases memberChain? e with
  | case1 => simp
  | case2 => simp
  | case3 => simp

theorem mentions_of_memberChain (h : e.memberChain? = some (base :: rest)) :
    e.mentions v = [v.read base] := by
  fun_induction memberChain? e generalizing rest with
  | case1 range text =>
    cases h
    rw [mentions]
  | case2 _ obj range text _ ih =>
    obtain ⟨chain, hchain, heq⟩ := Option.map_eq_some_iff.1 h
    cases chain with
    | nil => exact absurd hchain memberChain?_ne_nil
    | cons first more =>
      cases heq
      rw [mentions, mentions, List.append_nil, ih hchain]
  | case3 => cases h

theorem mentions_of_asString {text : String} (h : e.asString? = some text) : e.mentions v = [] := by
  cases e with
  | string range text => rw [mentions]
  | _ => cases h

theorem of_memberChain (h : e.memberChain? = some (base :: rest)) :
    e = .name base.range base.text ∧ rest = [] ∨ (∀ range text, e ≠ .name range text) ∧
    rest ≠ [] := by
  cases e with
  | name range text =>
    cases h
    exact .inl ⟨rfl, rfl⟩
  | index range obj key dotted =>
    refine .inr ⟨nofun, ?_⟩
    cases key with
    | string range' text =>
      obtain ⟨chain, hchain, heq⟩ := Option.map_eq_some_iff.1 h
      cases chain with
      | nil => exact absurd hchain memberChain?_ne_nil
      | cons first more =>
        cases heq
        simp
    | _ => cases h
  | _ => cases h

theorem rootKey?_of_memberChain {obj : Exp} (h : obj.memberChain? = some (base :: rest))
    {text : String} :
    rootKey? obj (.string range text) =
      if base.text == "_G" && rest.isEmpty then some ⟨text, range⟩ else none := by
  rcases of_memberChain h with ⟨rfl, rfl⟩ | ⟨hname, hrest⟩
  · simp [rootKey?]
  · rw [List.isEmpty_eq_false_iff.2 hrest, Bool.and_false, if_neg Bool.false_ne_true]
    cases obj with
    | name range' text' => exact absurd rfl (hname range' text')
    | _ => rfl

theorem mentions_of_splitChain {obj key : Exp} {dotted : Bool} {last : Name} {path : List Name}
    (h : WalkM.splitChain? (.index range obj key dotted) = some (base, path, last)) (v : Visible) :
    obj.mentions v ++ (key.mentions v ++ (rootKey? obj key).toList.map Name.global) =
      v.read base :: if base.text == "_G" && path.isEmpty then [last.global] else [] := by
  unfold WalkM.splitChain? at h
  cases key with
  | string range' text =>
    rw [memberChain?] at h
    cases hchain : obj.memberChain? with
    | none =>
      rw [hchain] at h
      cases h
    | some chain =>
      cases chain with
      | nil => exact absurd hchain memberChain?_ne_nil
      | cons first more =>
        rw [hchain] at h
        obtain ⟨rfl, rfl, rfl⟩ : first = base ∧ more = path ∧ (⟨text, range'⟩ : Name) = last := by
          simpa using (Option.ite_none_right_eq_some.1 h).2
        rw [mentions_of_memberChain hchain, rootKey?_of_memberChain hchain, mentions]
        split <;> rfl
  | _ => cases h

theorem rootKey?_of_splitChain {obj key : Exp} {dotted : Bool}
    (h : WalkM.splitChain? (.index range obj key dotted) = none) : rootKey? obj key = none := by
  unfold rootKey?
  split
  · cases h
  · rfl

end Exp

end LuaAnalysis
