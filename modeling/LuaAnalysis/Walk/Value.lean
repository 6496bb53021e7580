import LuaAnalysis.Types.Compatible
import LuaAnalysis.Walk.State

/-!
# What is known about values
-/

namespace LuaAnalysis

/-- What a walk knows about the value of an expression. -/
structure ValueInfo where
  kind : ValueKind := .unknown
  var : Option VariableId := none
  function : Option FunctionId := none
  reference : Option ReferenceId := none
deriving DecidableEq, Repr, Inhabited

namespace ValueInfo

def ofKind (kind : ValueKind) : ValueInfo :=
  { kind }

def unknown : ValueInfo :=
  {}

def ofFunction (f : FunctionId) : ValueInfo :=
  { kind := .function, function := some f }

end ValueInfo

namespace Store

def infoOf (s : Store) (id : VariableId) : ValueInfo :=
  let v := s.variableAt id
  { kind := v.kind, var := some id, function := v.function, reference := v.reference }

/-- A new variable with the value that `info` tells about. It shares the members of the variable that held the value. -/
def variableFrom (s : Store) (name : String) (file : FileId) (range : TextRange) (info : ValueInfo) : Variable :=
  let bare : Variable :=
    { name, file, range, kind := info.kind, function := info.function, reference := info.reference }
  match info.var with
  | none => bare
  | some held =>
    let held := s.variableAt held
    { bare with
      members := held.members
      flags.declaredEmpty := held.flags.declaredEmpty
      flags.module := held.flags.module || (info.reference.isSome && info.kind == .table)
      function := info.function <|> held.function
      reference := info.reference <|> held.reference }

/-- Gives a variable the value that `info` tells about. What was known about its kind stays, unless it was nil, unknown or
an empty table. -/
def reassign (s : Store) (id : VariableId) (info : ValueInfo) : Store :=
  let held? := (info.var.filter (· ≠ id)).map s.variableAt
  s.modifyVariable id fun v =>
    let v :=
      if v.kind.isReplaceable || v.flags.declaredEmpty then
        { v with
          kind := info.kind
          flags.declaredEmpty := (held?.map (·.flags.declaredEmpty)).getD false
          members := (held?.map (·.members)).getD v.members }
      else v
    { v with
      function := v.function <|> info.function
      reference := info.reference <|> v.reference }

def typeOf? (s : Store) (info : ValueInfo) : Option String :=
  (info.var.bind fun v => (s.variableAt v).declaredType) <|> info.kind.typeName?

def calleeOf? (s : Store) (info : ValueInfo) : Option FunctionId :=
  info.function <|> info.var.bind fun v => (s.variableAt v).function

def resultKind (f : Function) : ValueKind :=
  match f.types.returns.head? with
  | some t => .ofDeclared (some t)
  | none => ((f.lastValueReturn?).map (·.kind)).getD .unknown

def callResult (s : Store) (callee : ValueInfo) : ValueInfo :=
  match s.calleeOf? callee with
  | some f => .ofKind (resultKind (s.functionAt f))
  | none => .unknown

def isResolvedModule (s : Store) (id : VariableId) : Bool :=
  let v := s.variableAt id
  v.flags.module &&
    match v.reference with
    | some r =>
      let r := s.referenceAt r
      r.target.isSome && !r.inProgress
    | none => true

end Store

/-- The value for the target at an index: its own, one of a last expression that may give several, or none. -/
def valueAt? (infos : List ValueInfo) (values : List Exp) (i : Nat) : Option ValueInfo :=
  match infos[i]? with
  | some info => some info
  | none => if (values.getLast?.map (·.isMultiValue)).getD false then some .unknown else none

namespace WalkM

/-- Records what the value of a load was bound to. -/
def bindReference (info : ValueInfo) (binding : Binding) : WalkM Unit :=
  match info.reference with
  | some r => changeStore (·.modifyReference r ({ · with binding }))
  | none => pure ()

def checkType (name expected : String) (info : ValueInfo) (range : TextRange) : WalkM Unit := do
  match ← ask (·.typeOf? info) with
  | some actual =>
    if !Types.compatible expected actual then
      report .assignmentType s!"cannot assign '{actual}' to '{name}' declared as '{expected}'" range
  | none => return

def checkAssignedType (name expected : String) (info : ValueInfo) (range : TextRange) : WalkM Unit :=
  whenChecked .assignmentType (checkType name expected info range)

end WalkM

end LuaAnalysis
