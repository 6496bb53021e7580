import LuaAnalysis.Load.Basic
import LuaAnalysis.Types.Annotation
import LuaAnalysis.Types.ValueKind

/-!
# Symbols

Scopes, variables, functions and load references refer to each other by numbers of the store that holds them.
-/

namespace LuaAnalysis

structure ScopeId where
  index : Nat
deriving DecidableEq, Repr, Inhabited, Hashable

structure VariableId where
  index : Nat
deriving DecidableEq, Repr, Inhabited, Hashable

structure FunctionId where
  index : Nat
deriving DecidableEq, Repr, Inhabited, Hashable

structure ReferenceId where
  index : Nat
deriving DecidableEq, Repr, Inhabited, Hashable

/-! ## Scopes -/

inductive ScopeKind where
  | function | block | loop | branch
deriving DecidableEq, Repr, Inhabited

/-- A stretch of a file with the locals declared in it. -/
structure Scope where
  kind : ScopeKind
  parent : Option ScopeId
  children : List ScopeId := []
  function : FunctionId
  /-- The declarations of each name, a shadowed one before the one that shadows it. -/
  locals : OrderedMap String (List VariableId) := {}
  /-- Names that the guard of the scope proves nil or false, with what they were bound to. -/
  narrowed : OrderedMap String VariableId := {}
  /-- Names that the conditions tried so far in an `if` chain of this scope prove nil or false. -/
  chainNarrowed : OrderedMap String VariableId := {}
  range : TextRange
deriving DecidableEq, Repr, Inhabited

/-! ## Variables -/

structure VariableFlags where
  parameter : Bool := false
  loopVariable : Bool := false
  used : Bool := false
  /-- Its value is a table that has no members yet. -/
  declaredEmpty : Bool := false
  toBeClosed : Bool := false
  constant : Bool := false
  /-- Its value is what a load of a file gave. -/
  module : Bool := false
  /-- It was defined as a member of `_G`. -/
  rootNamespace : Bool := false
deriving DecidableEq, Repr, Inhabited

/-- A declaration: a local, a global, a member, or a value without a name. -/
structure Variable where
  name : String
  file : FileId
  kind : ValueKind := .unknown
  range : TextRange
  scope : Option ScopeId := none
  /-- The function whose scope declares a local. -/
  owner : Option FunctionId := none
  function : Option FunctionId := none
  reference : Option ReferenceId := none
  members : OrderedMap String VariableId := {}
  flags : VariableFlags := {}
  /-- Statements that assigned to a local before it was read. -/
  assignSites : List TextRange := []
  /-- The provided name that a local was initialised with. -/
  aliasOf : Option String := none
  declaredType : Option String := none
deriving DecidableEq, Repr, Inhabited

namespace Variable

def isLocal (v : Variable) : Bool :=
  v.scope.isSome

def isFunction (v : Variable) : Bool :=
  v.function.isSome || v.kind == .function

end Variable

/-! ## References -/

/-- What the value of a load was bound to. -/
inductive Binding where
  | toLocal | toGlobal | unbound
deriving DecidableEq, Repr, Inhabited

/-- A load in a file. -/
structure Reference where
  path : String
  load : LoadKind
  target : Option FileId
  binding : Binding := .unbound
  range : TextRange
  /-- The target was still being walked when the load was met. -/
  inProgress : Bool := false
deriving DecidableEq, Repr, Inhabited

/-! ## Functions -/

/-- A `return` of a function with its first value. -/
structure ReturnSite where
  range : TextRange
  kind : ValueKind
  value : Option VariableId
deriving DecidableEq, Repr, Inhabited

structure Label where
  scope : ScopeId
  range : TextRange
deriving DecidableEq, Repr, Inhabited

/-- A `goto` whose label has not been looked for yet. -/
structure PendingGoto where
  label : String
  scope : ScopeId
  range : TextRange
deriving DecidableEq, Repr, Inhabited

/-- What is fixed when a function is created. -/
structure FunctionSpec where
  file : FileId
  name : Option String := none
  parent : Option FunctionId := none
  parentScope : Option ScopeId := none
  params : List String := []
  isVararg : Bool := false
  hasColon : Bool := false
  range : TextRange
deriving DecidableEq, Repr, Inhabited

def FunctionSpec.main (file : FileId) (range : TextRange) : FunctionSpec :=
  { file, isVararg := true, range }

/-- A function body, or a whole file. -/
structure Function where
  file : FileId
  name : Option String
  parent : Option FunctionId
  mainScope : ScopeId
  depth : Nat
  /-- How many scopes of it are open. -/
  scopeDepth : Nat := 0
  params : List String
  isVararg : Bool
  types : FunctionTypes := {}
  hasColon : Bool
  /-- The table that a method was declared on. -/
  colonVariable : Option VariableId := none
  returns : List ReturnSite := []
  labels : OrderedMap String (List Label) := {}
  pendingGotos : List PendingGoto := []
  range : TextRange
deriving DecidableEq, Repr, Inhabited

def Function.lastValueReturn? (f : Function) : Option ReturnSite :=
  f.returns.reverse.find? (·.kind ≠ .nil)

end LuaAnalysis
