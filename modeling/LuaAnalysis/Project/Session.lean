import LuaAnalysis.Project.Basic

/-!
# Sessions

The operations of a project as they run: step by step on one project, where every step may fail. A failure ends the
operation but takes nothing back, so that the project stays as the steps before it have left it.
-/

namespace LuaAnalysis

/-- Steps that change a project and may fail. -/
abbrev Session := ExceptT AnalysisError (StateM Project)

namespace WalkM

/-- Walks a file; fails when there is no such file. -/
def walkOrFail (env : WalkEnv) (file : FileId) : ExceptT AnalysisError WalkM FileResult := do
  match ← walkAlone env file with
  | some result => return result
  | none => throw (.unknownFile s!"#{file.index}")

/-- Walks an entry file, unless an earlier one has reached it; fails when there is no such file. -/
def walkEntryOrFail (env : WalkEnv) (file : FileId) : ExceptT AnalysisError WalkM Unit := do
  if (← get).tables.isWalked file then return
  let result ← walkOrFail env file
  changeTables env fun t => { t with files := t.files.insert file result }

end WalkM

namespace Session

def runOn (m : Session α) (p : Project) : Except AnalysisError α × Project :=
  m.run.run p

def fileId (path : String) : Session FileId := do
  match (← get).files.idOf? path with
  | some id => return id
  | none => throw (.unknownFile path)

/-! ## Passes -/

def runFirstPass : Session FirstPass :=
  modifyGet fun p => (p.runFirstPass.2, p.runFirstPass.1)

def ensureFirstPass : Session Unit := do
  if (← get).firstPass.isNone then discard runFirstPass

def firstPass : Session FirstPass := do
  match (← get).firstPass with
  | some firstPass => return firstPass
  | none => throw (.missingFirstPass "<project>")

def firstPassResult (path : String) : Session FileResult := do
  let id ← fileId path
  ensureFirstPass
  match (← get).firstPass.bind (·.get? id) with
  | some a => return a.result
  | none => throw (.missingFirstPass path)

def walk (pass : Pass) (m : WalkEnv → ExceptT AnalysisError WalkM α) : Session (α × Walk) := do
  let firstPass ← firstPass
  let (outcome, w) := (m ((← get).env pass firstPass)).run.run (.start pass)
  return (← liftExcept outcome, w)

/-- The files of entries; without entries, every file. -/
def entryIds (entries : List String) : Session (List FileId) := do
  if entries.isEmpty then return (← get).files.ids
  entries.mapM fileId

def check (entries : List String) : Session ProjectResult := do
  let ids ← entryIds entries
  ensureFirstPass
  let (_, w) ← walk .project fun env => ids.forM (WalkM.walkEntryOrFail env)
  let result := { store := w.store, entries := ids, tables := w.tables }
  modify fun p => { p with result := some result }
  return result

def checkScattered (path : String) : Session FileResult := do
  let id ← fileId path
  ensureFirstPass
  let (result, _) ← walk .scattered fun env => WalkM.walkOrFail env id
  modify fun p => { p with scattered := p.scattered.insert id result }
  match (← get).scattered.get? id with
  | some result => return result
  | none => throw (.unknownFile path)

/-! ## Names -/

def names (id : FileId) : Session (List Occurrence) := do
  let (_, w) ← walk .coloring fun env => WalkM.walkOrFail env id
  return Project.inTextOrder w.occurrences.toList

def classify (path : String) : Session (List ColorSpan) := do
  let id ← fileId path
  ensureFirstPass
  return (← names id).map fun o => ⟨o.range, o.symbolClass⟩

def findReferences (path : String) (position : Position) : Session (List SymbolLocation) := do
  let id ← fileId path
  ensureFirstPass
  match (← names id).find? (·.range.contains position) with
  | some { declaration := some declaration, symbolClass, .. } =>
    let files := (← get).files
    let searched := if symbolClass.isLocal then [id] else files.ids
    let (_, w) ← walk .referenceSearch fun env => searched.forM fun f => discard (WalkM.walkOrFail env f)
    let places := declaration :: Project.usesAmong w.occurrences.toList declaration
    return places.map fun d => ⟨files.path d.file, d.range⟩
  | _ => return []

/-! ## Diagnostics -/

/-- The diagnostics of what is kept for a file, if anything; fails when it is about another file. -/
def keptDiagnostics (id : FileId) : Option FileResult → Session (List Diagnostic)
  | none => return []
  | some result => do
    let expected := (← get).files.path id
    if result.path = expected then return result.diagnostics
    throw (.pathMismatch expected result.path)

def diagnostics (path : String) : Session (List Diagnostic) := do
  let id ← fileId path
  let p ← get
  let first ← keptDiagnostics id ((p.firstPass.bind (·.get? id)).map (·.result))
  let later ← keptDiagnostics id (p.laterResult? id)
  return Project.mergeDiagnostics (first ++ later)

def allDiagnostics : Session (List Diagnostic) := do
  let found ← (← get).files.files.toList.mapM fun file => diagnostics file.path
  return found.flatten

end Session

end LuaAnalysis
