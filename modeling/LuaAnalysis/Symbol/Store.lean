import LuaAnalysis.Symbol.Basic

/-!
# The store of symbols

A store only grows: a symbol keeps its number, and a number that the store does not hold reads as the default symbol.
Scopes form trees by their parents, and names are looked up from the inside out.
-/

namespace LuaAnalysis

/-- The symbols of a walk, with the numbers that symbols of other stores were copied to. -/
structure Store where
  scopes : Array Scope := #[]
  vars : Array Variable := #[]
  functions : Array Function := #[]
  references : Array Reference := #[]
  importedVariables : OrderedMap (FileId × VariableId) VariableId := {}
  importedFunctions : OrderedMap (FileId × FunctionId) FunctionId := {}
deriving DecidableEq, Repr, Inhabited

namespace Store

/-! ## Symbols by number -/

def scopeAt (s : Store) (id : ScopeId) : Scope :=
  s.scopes.getD id.index default

def variableAt (s : Store) (id : VariableId) : Variable :=
  s.vars.getD id.index default

def functionAt (s : Store) (id : FunctionId) : Function :=
  s.functions.getD id.index default

def referenceAt (s : Store) (id : ReferenceId) : Reference :=
  s.references.getD id.index default

def modifyScope (s : Store) (id : ScopeId) (f : Scope → Scope) : Store :=
  { s with scopes := s.scopes.modify id.index f }

def modifyVariable (s : Store) (id : VariableId) (f : Variable → Variable) : Store :=
  { s with vars := s.vars.modify id.index f }

def modifyFunction (s : Store) (id : FunctionId) (f : Function → Function) : Store :=
  { s with functions := s.functions.modify id.index f }

def modifyReference (s : Store) (id : ReferenceId) (f : Reference → Reference) : Store :=
  { s with references := s.references.modify id.index f }

def memberOf? (s : Store) (owner : VariableId) (name : String) : Option VariableId :=
  (s.variableAt owner).members.get? name

def memberAlong? (s : Store) (owner : Option VariableId) (path : List String) : Option VariableId :=
  path.foldl (fun o name => o.bind (s.memberOf? · name)) owner

/-! ## New symbols -/

def addVariable (s : Store) (v : Variable) : Store × VariableId :=
  ({ s with vars := s.vars.push v }, ⟨s.vars.size⟩)

def addReference (s : Store) (r : Reference) : Store × ReferenceId :=
  ({ s with references := s.references.push r }, ⟨s.references.size⟩)

def addScope (s : Store) (kind : ScopeKind) (parent : Option ScopeId) (function : FunctionId) (range : TextRange) :
    Store × ScopeId :=
  let id : ScopeId := ⟨s.scopes.size⟩
  let s := { s with scopes := s.scopes.push { kind, parent, function, range } }
  match parent with
  | some p => (s.modifyScope p fun p => { p with children := p.children ++ [id] }, id)
  | none => (s, id)

def addFunction (s : Store) (spec : FunctionSpec) : Store × FunctionId :=
  let id : FunctionId := ⟨s.functions.size⟩
  let depth := match spec.parent with
    | some p => (s.functionAt p).depth + 1
    | none => 0
  let f : Function :=
    { file := spec.file
      name := spec.name
      parent := spec.parent
      mainScope := ⟨s.scopes.size⟩
      depth
      params := spec.params
      isVararg := spec.isVararg
      hasColon := spec.hasColon
      range := spec.range }
  let s := { s with functions := s.functions.push f }
  ((s.addScope .function spec.parentScope id spec.range).1, id)

/-! ## Scopes -/

/-- A scope and the ones around it, from the inside out. A parent has a smaller number than its children. -/
def ancestors (s : Store) (id : ScopeId) : List ScopeId :=
  id :: match (s.scopeAt id).parent with
    | some p => if p.index < id.index then s.ancestors p else []
    | none => []
termination_by id.index

def isDescendantOf (s : Store) (scope ancestor : ScopeId) : Bool :=
  (s.ancestors scope).contains ancestor

/-- Adds a declaration to a scope; an earlier one of the same name stays and is shadowed. -/
def declareLocal (s : Store) (scope : ScopeId) (name : String) (v : VariableId) : Store :=
  (s.modifyVariable v fun x => { x with scope := some scope }).modifyScope scope fun x =>
    { x with locals := x.locals.alter name fun vs => vs.getD [] ++ [v] }

def localIn? (s : Store) (scope : ScopeId) (name : String) : Option VariableId :=
  ((s.scopeAt scope).locals.get? name).bind (·.getLast?)

/-- The innermost declaration of a name that is visible from a scope, across functions. -/
def lookupLocal? (s : Store) (scope : ScopeId) (name : String) : Option VariableId :=
  (s.ancestors scope).findSome? (s.localIn? · name)

/-- All declarations of a scope, shadowed ones included. -/
def localsOf (s : Store) (scope : ScopeId) : List VariableId :=
  (s.scopeAt scope).locals.values.flatten

/-! ## Narrowing -/

def scopesOfFunction (s : Store) (scope : ScopeId) : List ScopeId :=
  let function := (s.scopeAt scope).function
  (s.ancestors scope).takeWhile fun id => (s.scopeAt id).function == function

def narrow (s : Store) (scope : ScopeId) (name : String) (v : VariableId) : Store :=
  s.modifyScope scope fun x => { x with narrowed := x.narrowed.insert name v }

/-- The declaration that an enclosing guard of the same function proves nil or false. -/
def narrowed? (s : Store) (scope : ScopeId) (name : String) : Option VariableId :=
  (s.scopesOfFunction scope).findSome? fun id => (s.scopeAt id).narrowed.get? name

/-- Forgets what the enclosing guards of the same function prove about a name. -/
def clearNarrowing (s : Store) (scope : ScopeId) (name : String) : Store :=
  (s.scopesOfFunction scope).foldl
    (fun s id => s.modifyScope id fun x => { x with narrowed := x.narrowed.erase name }) s

end Store

end LuaAnalysis
