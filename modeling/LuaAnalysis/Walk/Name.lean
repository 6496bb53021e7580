import LuaAnalysis.Walk.Value

/-!
# Names: declaring, looking up, reading

A name is looked for among the visible locals, the globals of the file, the members of `_G`, the globals of other files as
far as the pass sees them, and at last the names that Lua or the settings provide.
-/

namespace LuaAnalysis

def Variable.classIn (v : Variable) (function : FunctionId) : SymbolClass :=
  if !v.isLocal then
    if v.isFunction then .globalFunction else .globalVariable
  else if v.flags.parameter then .parameter
  else if v.flags.loopVariable then .loopVariable
  else if v.owner ≠ some function then .upvalue
  else if v.function.isSome then .localFunction
  else .localVariable

inductive Lookup where
  | found (v : VariableId)
  /-- Defined, but by code that has not run at this point. -/
  | tooEarly (v : VariableId) (origin : RelatedPlace)
  | builtin
  | unresolved
deriving DecidableEq, Repr, Inhabited

namespace WalkM

/-! ## Occurrences -/

def notify (name : String) (range : TextRange) (role : NameRole) (id : VariableId) : WalkM Unit :=
  modify fun w =>
    let v := w.store.variableAt id
    let occurrence : Occurrence :=
      { name
        file := w.frame.file
        range
        role
        declaration := some ⟨v.file, v.range⟩
        symbolClass := v.classIn w.frame.function }
    { w with occurrences := w.occurrences.push occurrence }

/-- Records a name that is bound to nothing in the project. -/
def notifyUnbound (name : String) (range : TextRange) (symbolClass : SymbolClass) : WalkM Unit :=
  modify fun w =>
    let occurrence : Occurrence :=
      { name, file := w.frame.file, range, role := .read, declaration := none, symbolClass }
    { w with occurrences := w.occurrences.push occurrence }

/-! ## Declaring -/

def declareQuietly (v : Variable) : WalkM VariableId := do
  let f ← frame
  let id ← add (·.addVariable { v with owner := some f.function })
  changeStore (·.declareLocal f.scope v.name id)
  return id

def declare (v : Variable) : WalkM Unit := do
  let id ← declareQuietly v
  notify v.name v.range .declaration id

/-! ## Looking up -/

def importFrom (found : FileAnalysis × VariableId) : WalkM VariableId :=
  add (·.importVariable found.1.store found.1.result.file found.2)

def importFound (found? : Option (FileAnalysis × VariableId)) : WalkM (Option VariableId) :=
  match found? with
  | some found => some <$> importFrom found
  | none => pure none

variable (env : WalkEnv)

/-- The global that another file defines, as far as the pass sees it. -/
def visibleGlobal? (name : String) : WalkM (Option VariableId) := do
  match env.pass with
  | .fileLocal => return none
  | .project => return (← get).tables.globals.get? name
  | .scattered | .referenceSearch | .coloring => importFound (env.firstPass.global? name)

/-- The definition of a global in a file that the walk from entry files has not finished: the current file, a file that
waits for a load, or any other. -/
def unfinishedDefinition? (w : Walk) (name : String) : Option (FileAnalysis × VariableId) :=
  env.firstPass.globalIn? (w.frame.file :: w.phase.active) name <|> env.firstPass.global? name

/-- What a name is that no local and no finished definition binds. -/
def lookupUndefined (name : String) : WalkM Lookup := do
  if Builtin.isName name || env.config.globals.isIgnored name then return .builtin
  if env.pass ≠ .project then return .unresolved
  let w ← get
  match unfinishedDefinition? env w name with
  | none => return .unresolved
  | some (a, v) =>
    let origin : RelatedPlace :=
      { file := a.result.path, message := s!"'{name}' is defined here", range := (a.store.variableAt v).range }
    let id ← importFrom (a, v)
    -- The body of a function runs later, usually after the definition.
    let depth ← ask fun s => (s.functionAt w.frame.function).depth
    return if 0 < depth then .found id else .tooEarly id origin

def lookup (name : String) : WalkM Lookup := do
  let w ← get
  if let some id := w.store.lookupLocal? w.frame.scope name then return .found id
  if let some id := w.frame.globals.get? name then return .found id
  if let some id := w.tables.rootGlobals.get? name then return .found id
  if let some id ← importFound (env.firstPass.rootGlobal? name) then return .found id
  if let some id ← visibleGlobal? env name then return .found id
  lookupUndefined env name

def readUndefined (name : String) (range : TextRange) : WalkM Unit := do
  changeFrame fun f => { f with undefined := f.undefined.alter name fun sites => sites.getD [] ++ [range] }
  report .undefinedGlobal s!"undefined global '{name}'" range

def readName (name : String) (range : TextRange) : WalkM ValueInfo := do
  match ← lookup env name with
  | .found id =>
    changeStore (·.modifyVariable id fun v => { v with flags.used := true })
    notify name range .read id
    ask (·.infoOf id)
  | .tooEarly id origin =>
    if (← frame).selfTarget ≠ some name then
      report .loadOrder s!"global '{name}' is used before its definition has run" range [origin]
    notify name range .read id
    ask (·.infoOf id)
  | .builtin =>
    notifyUnbound name range .builtin
    return .ofKind (Builtin.kind name)
  | .unresolved =>
    notifyUnbound name range .unresolved
    if (← frame).selfTarget ≠ some name then readUndefined name range
    return .unknown

/-! ## Narrowed names -/

def currentBinding? (w : Walk) (name : String) : Option VariableId :=
  w.store.lookupLocal? w.frame.scope name <|> w.frame.globals.get? name <|> w.tables.globals.get? name

/-- Reports an access to a name that an enclosing condition proves nil or false. -/
def checkMaybeNil (name : String) (range : TextRange) : WalkM Unit := do
  let w ← get
  if !w.frame.gate.checks .maybeNil || w.frame.guards.any (·.contains name) then return
  match w.store.narrowed? w.frame.scope name with
  | some v =>
    if currentBinding? w name == some v then report .maybeNil s!"'{name}' may be nil here" range
  | none => return

/-- Records in the current scope what the conditions tried so far in a chain of `chainScope`, and the condition of the
scope itself, prove nil or false. -/
def applyNarrowing (chainScope : ScopeId) (proven : NameSet) : WalkM Unit := do
  let w ← get
  let scope := w.frame.scope
  let earlier := (w.store.scopeAt chainScope).chainNarrowed.entries.filter fun (name, v) =>
    currentBinding? w name == some v
  let own := proven.names.filterMap fun name => (currentBinding? w name).map (name, ·)
  changeStore fun s => (earlier ++ own).foldl (fun s (name, v) => s.narrow scope name v) s

/-- Records what the failure of a condition proves nil or false for the rest of its chain. -/
def narrowChain (chainScope : ScopeId) (proven : NameSet) : WalkM Unit := do
  let w ← get
  let bound := proven.names.filterMap fun name => (currentBinding? w name).map (name, ·)
  changeStore (·.modifyScope chainScope fun s =>
    { s with chainNarrowed := bound.foldl (fun m (name, v) => m.insert name v) s.chainNarrowed })

def withChain (body : ScopeId → WalkM α) : WalkM α := do
  let scope := (← frame).scope
  let outer ← ask fun s => (s.scopeAt scope).chainNarrowed
  changeStore (·.modifyScope scope ({ · with chainNarrowed := {} }))
  let result ← body scope
  changeStore (·.modifyScope scope ({ · with chainNarrowed := outer }))
  return result

end WalkM

end LuaAnalysis
