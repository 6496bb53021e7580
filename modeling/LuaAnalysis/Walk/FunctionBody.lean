import LuaAnalysis.Check.Duplicate
import LuaAnalysis.Check.Redundant
import LuaAnalysis.Walk.LoadCall

/-!
# Functions: creating, parameters, labels
-/

namespace LuaAnalysis.WalkM

/-- Reports values that a table gives twice, if an annotation says that its values are to be different. -/
def checkEnum (line : Nat) (fields : List Field) : WalkM Unit := do
  if (← frame).annotations.isEnum line then reportAll (Check.duplicateEnumValues fields)

def createFunction (body : FunctionBody) (name : Option String) (hasColon : Bool) (types : Option FunctionTypes) :
    WalkM FunctionId := do
  let f ← frame
  let id ← add (·.addFunction
    { file := f.file
      name
      parent := some f.function
      parentScope := some f.scope
      params := body.params.map (·.text)
      isVararg := body.isVararg
      hasColon
      range := body.range })
  match types with
  | some types => changeStore (·.modifyFunction id ({ · with types }))
  | none => pure ()
  return id

def paramVariable (file : FileId) (f : Function) (param : Name) : Variable :=
  let declaredType := f.types.params.get? param.text
  { name := param.text
    file
    range := param.range
    kind := .ofDeclared declaredType
    flags := { parameter := true }
    declaredType }

/-- Declares the `self` of a method, which is not written. It has the members of the table of the method. -/
def declareSelf (f : Function) (v : Variable) : WalkM Unit := do
  match f.colonVariable with
  | some owner =>
    let members ← ask fun s => (s.variableAt owner).members
    discard (declareQuietly { v with kind := .table, members })
  | none => discard (declareQuietly v)

def declareParams (id : FunctionId) (params : List Name) : WalkM Unit := do
  let file := (← frame).file
  let f ← ask (·.functionAt id)
  match params with
  | [] => return
  | first :: rest =>
    let v := paramVariable file f first
    if f.hasColon && first.text == "self" then declareSelf f v else declare v
    rest.forM fun p => declare (paramVariable file f p)

def isVisibleLabel (s : Store) (f : Function) (g : PendingGoto) : Bool :=
  ((f.labels.get? g.label).getD []).any fun l => s.isDescendantOf g.scope l.scope

/-- Reports the jumps of a function to labels that they do not see, and closes its main scope. -/
def finishFunction (id : FunctionId) : WalkM Unit := do
  let lost ← ask fun s =>
    let f := s.functionAt id
    f.pendingGotos.filter (!isVisibleLabel s f ·)
  changeStore (·.modifyFunction id ({ · with pendingGotos := [] }))
  lost.forM fun g => report .unknownGotoLabel s!"no visible label '{g.label}' for goto" g.range
  closeScope (← ask fun s => (s.functionAt id).mainScope)

def addGoto (label : Name) : WalkM Unit := do
  let f ← frame
  changeStore (·.modifyFunction f.function fun x =>
    { x with pendingGotos := x.pendingGotos ++ [⟨label.text, f.scope, label.range⟩] })

def addLabel (label : Name) : WalkM Unit := do
  let f ← frame
  changeStore (·.modifyFunction f.function fun x =>
    { x with labels := x.labels.alter label.text fun ls => ls.getD [] ++ [⟨f.scope, label.range⟩] })

/-- Reports returned values that do not fit the declared types, from the one with number `i` on. -/
def checkReturns : Nat → List String → List (Exp × ValueInfo) → WalkM Unit
  | i, expected :: types, (value, info) :: values => do
    match ← ask (·.typeOf? info) with
    | some actual =>
      if !Types.compatible expected actual then
        report .returnType s!"return value #{i} has type '{actual}' but '{expected}' is declared" value.range
    | none => pure ()
    checkReturns (i + 1) types values
  | _, _, _ => return

def checkReturnTypes (types : List String) (values : List (Exp × ValueInfo)) : WalkM Unit :=
  if types.isEmpty then pure () else whenChecked .returnType (checkReturns 1 types values)

def returnedVariable (value : Exp) (info : ValueInfo) : WalkM VariableId := do
  match info.var with
  | some v => return v
  | none =>
    let file := (← frame).file
    let v ← ask (·.variableFrom "" file value.range info)
    add (·.addVariable v)

def addReturn (ret : ReturnStat) (infos : List ValueInfo) : WalkM Unit := do
  let function := (← frame).function
  checkReturnTypes (← ask fun s => (s.functionAt function).types.returns) (ret.values.zip infos)
  let site : ReturnSite ← match ret.values, infos with
    | value :: _, info :: _ => do
      let v ← returnedVariable value info
      pure { range := ret.range, kind := info.kind, value := some v }
    | _, _ => pure { range := ret.range, kind := .nil, value := none }
  changeStore (·.modifyFunction function fun f => { f with returns := f.returns ++ [site] })

variable (env : WalkEnv)

def assignFunction (name : FunctionName) (id : FunctionId) (range : TextRange) : WalkM Unit := do
  let info := ValueInfo.ofFunction id
  match name.more ++ name.method.toList with
  | [] => assignName env name.first.text name.first.range info range
  | key :: rest =>
    if name.first.text == "_G" && rest.isEmpty then
      discard (readName env name.first.text name.first.range)
      assignRootGlobal env key.text key.range info
    else
      let keys := key :: rest
      let owner? ← memberOwner? env name.first keys.dropLast
      match owner?, keys.getLast? with
      | some owner, some last =>
        if keys.length < maxChain then
          if name.method.isSome then
            changeStore (·.modifyFunction id ({ · with colonVariable := some owner }))
          setMember owner last.text last.range info
      | _, _ => return

/-- The provided name that a local is a second name of. -/
def aliasOf? (s : Store) (scope : ScopeId) (value? : Option Exp) : Option String :=
  (value?.bind (·.asName?)).filter fun a => Builtin.isName a && (s.lookupLocal? scope a).isNone

def declareLocal (values : List Exp) (infos : List ValueInfo) (i : Nat) (declaredType : Option String)
    (constant : Bool) (n : LocalName) : WalkM Unit := do
  let f ← frame
  let value? := valueAt? infos values i
  let bare ← ask (·.variableFrom n.name.text f.file n.name.range (value?.getD (.ofKind .nil)))
  let aliasOf ← ask (aliasOf? · f.scope values[i]?)
  match declaredType, value? with
  | some expected, some info => checkAssignedType n.name.text expected info n.name.range
  | _, _ => pure ()
  declare
    { bare with
      flags.constant := constant || n.attrib.isSome
      flags.toBeClosed := n.attrib = some .close
      aliasOf
      declaredType }
  match bare.reference with
  | some r => changeStore (·.modifyReference r ({ · with binding := .toLocal }))
  | none => return

/-- Declares the names of a `local` statement from index `i` on. What an annotation says is about the first. -/
def declareLocals (values : List Exp) (infos : List ValueInfo) :
    Nat → Option String → Bool → List LocalName → WalkM Unit
  | _, _, _, [] => return
  | i, declaredType, constant, n :: rest => do
    declareLocal values infos i declaredType constant n
    declareLocals values infos (i + 1) none false rest

def declareLoopVariable (name : Name) (kind : ValueKind) : WalkM Unit := do
  let file := (← frame).file
  declare { name := name.text, file, range := name.range, kind, flags := { loopVariable := true } }

/-- The name that a statement `x = x or default` defines. -/
def selfTarget? (name? : Option String) (values : List Exp) : Option String :=
  match values with
  | [value] => name?.filter (Check.isSelfReference · value)
  | _ => none

end LuaAnalysis.WalkM
