import LuaAnalysis.Walk.File

/-!
# Projects

A project holds files and settings, and keeps the results of the passes until a file or a setting changes. Every question
that names a file fails exactly when the file is not registered; it then changes nothing.
-/

namespace LuaAnalysis

/-- The result of a walk from entry files. All files that it reached share one store. -/
structure ProjectResult where
  store : Store
  entries : List FileId
  tables : ProjectTables
deriving DecidableEq, Repr, Inhabited

/-- A global of the project; what was defined as a member of `_G` comes first. -/
def ProjectResult.global? (r : ProjectResult) (name : String) : Option VariableId :=
  r.tables.rootGlobals.get? name <|> r.tables.globals.get? name

inductive AnalysisError where
  | unknownFile (path : String)
  /-- The first pass has left nothing about a file. -/
  | missingFirstPass (path : String)
  /-- What is kept for a file is about another one. -/
  | pathMismatch (expected found : String)
deriving DecidableEq, Repr, Inhabited

def AnalysisError.message : AnalysisError → String
  | unknownFile path => s!"Unknown file '{path}'"
  | missingFirstPass path => s!"The first pass has not produced a result for '{path}'"
  | pathMismatch expected found => s!"Result for '{found}' was filed under '{expected}'"

structure SymbolLocation where
  path : String
  range : TextRange
deriving DecidableEq, Repr, Inhabited

structure ColorSpan where
  range : TextRange
  symbolClass : SymbolClass
deriving DecidableEq, Repr, Inhabited

structure GlobalSymbol where
  name : String
  path : String
  range : TextRange
  isFunction : Bool
deriving DecidableEq, Repr, Inhabited

/-- Files and settings with the results so far. -/
structure Project where
  config : Config := {}
  realtime : Bool := false
  files : FileIndex := .empty
  annotations : AnnotationTable := {}
  suppression : Suppression := {}
  firstPass : Option FirstPass := none
  result : Option ProjectResult := none
  scattered : OrderedMap FileId FileResult := {}
deriving Inhabited

namespace Project

def ofConfig (config : Config) : Project :=
  { config, suppression := .ofConfig config.diagnostics }

def settingFaults (p : Project) : List SettingFault :=
  Suppression.faults p.config.diagnostics

def invalidate (p : Project) : Project :=
  { p with firstPass := none, result := none, scattered := {} }

def addFile (p : Project) (path text : String) : Project × FileId :=
  let (files, id) := p.files.insert path text
  let annotations := match files.get? id with
    | some file => p.annotations.insertFile file.path file.source.comments
    | none => p.annotations
  ({ p with files, annotations }.invalidate, id)

def setRealtime (p : Project) (realtime : Bool) : Project :=
  { p with realtime }.invalidate

def fileId (p : Project) (path : String) : Except AnalysisError FileId :=
  match p.files.idOf? path with
  | some id => .ok id
  | none => .error (.unknownFile path)

/-! ## Passes -/

def env (p : Project) (pass : Pass) (firstPass : FirstPass) : WalkEnv :=
  { pass, realtime := p.realtime, config := p.config, files := p.files, annotations := p.annotations, firstPass,
    suppression := p.suppression }

def analyse? (p : Project) (file : FileId) : Option FileAnalysis :=
  let (result?, w) := (WalkM.walkAlone (p.env .fileLocal {}) file).run (.start .fileLocal)
  result?.map fun result => { store := w.store, result }

def computeFirstPass (p : Project) : FirstPass :=
  ⟨p.files.ids.filterMap p.analyse?⟩

def runFirstPass (p : Project) : Project × FirstPass :=
  let firstPass := p.computeFirstPass
  ({ p with firstPass := some firstPass }, firstPass)

/-- Walks every file alone, unless that has been done. -/
def ensureFirstPass (p : Project) : Project × FirstPass :=
  match p.firstPass with
  | some firstPass => (p, firstPass)
  | none => p.runFirstPass

def firstPassResult (p : Project) (path : String) : Except AnalysisError (Project × FileResult) := do
  let id ← p.fileId path
  let (p, firstPass) := p.ensureFirstPass
  match firstPass.get? id with
  | some a => return (p, a.result)
  | none => throw (.missingFirstPass path)

def walkFrom (p : Project) (firstPass : FirstPass) (entries : List FileId) : ProjectResult :=
  let (_, w) := (entries.forM (WalkM.walkEntry (p.env .project firstPass))).run (.start .project)
  { store := w.store, entries, tables := w.tables }

/-- Walks from entry files along their loads; without entries, from every file. -/
def check (p : Project) (entries : List String) : Except AnalysisError (Project × ProjectResult) := do
  let ids ← if entries.isEmpty then pure p.files.ids else entries.mapM p.fileId
  let (p, firstPass) := p.ensureFirstPass
  let result := p.walkFrom firstPass ids
  return ({ p with result := some result }, result)

/-- Checks one file against what the first pass found in the others. -/
def checkScattered (p : Project) (path : String) : Except AnalysisError (Project × FileResult) := do
  let id ← p.fileId path
  let (p, firstPass) := p.ensureFirstPass
  let (result?, _) := (WalkM.walkAlone (p.env .scattered firstPass) id).run (.start .scattered)
  match result? with
  | some result => return ({ p with scattered := p.scattered.insert id result }, result)
  | none => throw (.unknownFile s!"#{id.index}")

/-! ## Names -/

def occurrences (p : Project) (pass : Pass) (firstPass : FirstPass) (files : List FileId) : List Occurrence :=
  let (_, w) := (files.forM fun f => discard (WalkM.walkAlone (p.env pass firstPass) f)).run (.start pass)
  w.occurrences.toList

def inTextOrder (names : List Occurrence) : List Occurrence :=
  names.mergeSort fun a b => a.range.start ≤ b.range.start

def namesOf (p : Project) (firstPass : FirstPass) (file : FileId) : List Occurrence :=
  inTextOrder (p.occurrences .coloring firstPass [file])

/-- What every name of a file stands for. -/
def classify (p : Project) (path : String) : Except AnalysisError (Project × List ColorSpan) := do
  let id ← p.fileId path
  let (p, firstPass) := p.ensureFirstPass
  return (p, (p.namesOf firstPass id).map fun o => ⟨o.range, o.symbolClass⟩)

/-- The list without an element that equals the one before it. -/
def dropRepeats [DecidableEq α] : List α → List α
  | [] => []
  | a :: as =>
    match dropRepeats as with
    | [] => [a]
    | b :: bs => if a = b then b :: bs else a :: b :: bs

def usesAmong (names : List Occurrence) (declaration : DeclKey) : List DeclKey :=
  let found := names.filter (·.declaration = some declaration)
  let places := (found.map fun o => (⟨o.file, o.range⟩ : DeclKey)).filter (· ≠ declaration)
  dropRepeats (places.mergeSort fun a b =>
    a.file.index < b.file.index || (a.file.index == b.file.index && a.range.start ≤ b.range.start))

def usesOf (p : Project) (firstPass : FirstPass) (files : List FileId) (declaration : DeclKey) : List DeclKey :=
  usesAmong (p.occurrences .referenceSearch firstPass files) declaration

/-- The declaration of the name at a place, and all its uses. -/
def findReferences (p : Project) (path : String) (position : Position) :
    Except AnalysisError (Project × List SymbolLocation) := do
  let id ← p.fileId path
  let (p, firstPass) := p.ensureFirstPass
  match (p.namesOf firstPass id).find? (·.range.contains position) with
  | some { declaration := some declaration, symbolClass, .. } =>
    let files := if symbolClass.isLocal then [id] else p.files.ids
    let places := declaration :: p.usesOf firstPass files declaration
    return (p, places.map fun d => ⟨p.files.path d.file, d.range⟩)
  | _ => return (p, [])

/-! ## Diagnostics -/

/-- The list without an element that repeats kind, range and message of an earlier one. -/
def firstOfEach : List Diagnostic → List Diagnostic
  | [] => []
  | d :: ds =>
    d :: (firstOfEach ds).filter fun e => !(e.kind == d.kind && e.range == d.range && e.message == d.message)

/-- Sorts by range and kind, and drops repeats. -/
def mergeDiagnostics (ds : List Diagnostic) : List Diagnostic :=
  firstOfEach (ds.mergeSort fun a b => (compare a.range b.range).then (compare a.kind b.kind) ≠ .gt)

/-- The later result of a file: of the walk from entry files if it got there, or of the check of the file. -/
def laterResult? (p : Project) (id : FileId) : Option FileResult :=
  (p.result.bind fun r => r.tables.files.get? id) <|> p.scattered.get? id

def diagnosticsOf (p : Project) (id : FileId) : List Diagnostic :=
  let first := ((p.firstPass.bind (·.get? id)).map (·.result.diagnostics)).getD []
  let later := ((p.laterResult? id).map (·.diagnostics)).getD []
  mergeDiagnostics (first ++ later)

def diagnostics (p : Project) (path : String) : Except AnalysisError (List Diagnostic) :=
  p.diagnosticsOf <$> p.fileId path

def allDiagnostics (p : Project) : List Diagnostic :=
  p.files.ids.flatMap p.diagnosticsOf

/-- The globals that the files define, as far as they have been walked alone. -/
def globalSymbols (p : Project) : List GlobalSymbol :=
  (p.firstPass.getD {}).analyses.flatMap fun a =>
    a.result.globals.entries.map fun (name, id) =>
      let v := a.store.variableAt id
      { name, path := a.result.path, range := v.range, isFunction := v.isFunction }

end Project

end LuaAnalysis
