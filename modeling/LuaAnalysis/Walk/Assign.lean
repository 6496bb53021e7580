import LuaAnalysis.Walk.Name

/-!
# Assignments

Assigning to a name that no local binds defines a global or changes one. Assigning to `_G.x` defines the global `x`, and
assigning to `a.b` or `a.b.c` gives a table a member.
-/

namespace LuaAnalysis.WalkM

/-- Reports a write to a constant, and a value that does not fit the declared type. -/
def checkWrite (id : VariableId) (name : String) (range : TextRange) (info : ValueInfo) : WalkM Unit := do
  let v ← ask (·.variableAt id)
  if v.flags.constant then
    report .constAssign s!"cannot assign to constant variable '{name}'" range
  match v.declaredType with
  | some expected => checkAssignedType name expected info range
  | none => return

/-- Writes to a local. A write before the first read is remembered. -/
def assignLocal (id : VariableId) (name : String) (range : TextRange) (info : ValueInfo) (statement : TextRange) :
    WalkM Unit := do
  checkWrite id name range info
  changeStore (·.modifyVariable id fun v =>
    if v.flags.used then v else { v with assignSites := v.assignSites ++ [statement] })
  changeStore (·.reassign id info)
  let scope := (← frame).scope
  changeStore (·.clearNarrowing scope name)
  bindReference info .toLocal
  notify name range .write id

/-- Writes to a global that is already defined. -/
def assignGlobal (id : VariableId) (name : String) (range : TextRange) (info : ValueInfo) : WalkM Unit := do
  checkWrite id name range info
  changeStore (·.reassign id info)
  let scope := (← frame).scope
  changeStore (·.clearNarrowing scope name)
  changeFrame fun f => { f with globals := f.globals.insertIfNew name id }
  notify name range .write id

variable (env : WalkEnv)

/-- Changes the tables of a walk from entry files; other passes have none. -/
def changeTables (f : ProjectTables → ProjectTables) : WalkM Unit :=
  if env.pass = .project then modify fun w => { w with tables := f w.tables } else pure ()

def defineGlobal (name : String) (range : TextRange) (info : ValueInfo) (statement : TextRange) : WalkM Unit := do
  let f ← frame
  let line := statement.start.line
  let declaredType := f.annotations.declaredType? line
  let bare ← ask (·.variableFrom name f.file range info)
  let v := { bare with declaredType, flags.constant := f.annotations.isConstant line }
  match declaredType with
  | some expected => checkAssignedType name expected info range
  | none => pure ()
  let id ← add (·.addVariable v)
  changeFrame fun f => { f with globals := f.globals.insert name id }
  changeTables env (·.defineGlobal name id)
  notify name range .declaration id

def knownGlobal? (name : String) : WalkM (Option VariableId) := do
  match (← frame).globals.get? name with
  | some id => return some id
  | none => visibleGlobal? env name

def assignName (name : String) (range : TextRange) (info : ValueInfo) (statement : TextRange) : WalkM Unit := do
  let scope := (← frame).scope
  match ← ask (·.lookupLocal? scope name) with
  | some id => assignLocal id name range info statement
  | none =>
    match ← knownGlobal? env name with
    | some id => assignGlobal id name range info
    | none => defineGlobal env name range info statement
    bindReference info .toGlobal

/-! ## Members -/

/-- The variable of a member of `_G` that is visible here. -/
def knownRootGlobal? (name : String) : WalkM (Option VariableId) := do
  let w ← get
  match w.frame.rootGlobals.get? name with
  | some id => return some id
  | none =>
    match env.pass with
    | .fileLocal => return none
    | .project => return w.tables.rootGlobals.get? name
    | .scattered | .referenceSearch | .coloring => importFound (env.firstPass.rootGlobal? name)

def assignRootGlobal (name : String) (range : TextRange) (info : ValueInfo) : WalkM Unit := do
  let (id, role) ← match ← knownRootGlobal? env name with
    | some id => do
      changeStore (·.reassign id info)
      pure (id, NameRole.write)
    | none => do
      let file := (← frame).file
      let v ← ask (·.variableFrom name file range info)
      let id ← add (·.addVariable { v with flags.rootNamespace := true })
      changeTables env (·.defineRootGlobal name id)
      pure (id, NameRole.declaration)
  changeFrame fun f =>
    { f with rootGlobals := f.rootGlobals.insertIfNew name id, globals := f.globals.insertIfNew name id }
  bindReference info .toGlobal
  notify name range role id

def setMember (owner : VariableId) (key : String) (range : TextRange) (info : ValueInfo) : WalkM Unit := do
  match ← ask (·.memberOf? owner key) with
  | some id => changeStore (·.reassign id info)
  | none =>
    let file := (← frame).file
    let v ← ask (·.variableFrom key file range info)
    let id ← add (·.addVariable v)
    changeStore (·.modifyVariable owner fun o =>
      { o with members := o.members.insert key id, flags.declaredEmpty := false })

/-- Reads the first name of a chain of members and finds the table that holds the last one. -/
def memberOwner? (base : Name) (path : List Name) : WalkM (Option VariableId) := do
  let info ← readName env base.text base.range
  checkMaybeNil base.text base.range
  ask (·.memberAlong? info.var (path.map (·.text)))

def assignMember (base : Name) (path : List Name) (key : Name) (info : ValueInfo) : WalkM Unit := do
  if base.text == "_G" && path.isEmpty then
    discard (readName env base.text base.range)
    assignRootGlobal env key.text key.range info
  else
    match ← memberOwner? env base path with
    | some owner => setMember owner key.text key.range info
    | none => return

/-- The longest chain of members that is followed: `a.b.c`. -/
def maxChain : Nat := 3

/-- The parts of a chain of members that is short enough: the first name, the path and the last key. -/
def splitChain? (target : Exp) : Option (Name × List Name × Name) :=
  match target.memberChain? with
  | some (base :: rest) =>
    if rest.length < maxChain then rest.getLast?.map (base, rest.dropLast, ·) else none
  | _ => none

end LuaAnalysis.WalkM
