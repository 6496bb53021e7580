import LuaAnalysis.Command.Arguments
import LuaAnalysis.Config.File
import LuaAnalysis.Disk.Basic
import LuaAnalysis.Project.Session
import LuaAnalysis.Report.Terminal

/-!
# Checking the files of a project

The command finds the Lua files below its paths, walks them as one project, checks the files that the walk does not reach,
and writes a report. Files are named relative to the directory of the first path.
-/

namespace LuaAnalysis

/-- What a command leaves behind. -/
structure Outcome where
  exitCode : Nat := 0
  output : String := ""
  /-- The lines that are no part of the report. -/
  notices : List String := []
deriving DecidableEq, Repr, Inhabited

inductive CheckFault where
  | missingPath (p : DiskPath)
  | unreadable (p : DiskPath)
  | analysis (e : AnalysisError)
deriving DecidableEq, Repr, Inhabited

def CheckFault.message : CheckFault → String
  | missingPath p => s!"Path does not exist: {p.text}"
  | unreadable p => s!"Failed to read {p.text}"
  | analysis e => e.message

/-- What the surroundings say about colours. -/
structure ColorChoice where
  forced : Bool := false
  refused : Bool := false
  terminal : Bool := false
deriving DecidableEq, Repr, Inhabited

namespace Check

/-! ## Paths and selection -/

def relativeName (root file : DiskPath) : String :=
  String.ofList (Path.slashed ((file.relativeTo? root).getD file).text.toList)

def isUnder (name path : String) : Bool :=
  let start := Text.dropEndWhile (· == '/') (Path.dropCurrentDir path.toList)
  name.toList == start || (Text.dropPrefix? (start ++ ['/']) name.toList).isSome

def isSelected (config : Config) (name : String) : Bool :=
  (config.includes.isEmpty || config.includes.any (isUnder name)) && !config.excludes.any (isUnder name)

def isLuaFile (p : DiskPath) : Bool :=
  p.extension? == some "lua"

/-- Names that start with a dot are left alone. -/
def isVisible (name : String) : Bool :=
  name.toList.head? ≠ some '.'

def inOrder (files : List DiskPath) : List DiskPath :=
  (files.mergeSort DiskPath.le).eraseRepsBy DiskPath.sameSteps

section Disk

variable {m : Type → Type} [Monad m]

/-- The directory that files are named relative to: the first path, or its parent if it is a file. -/
def projectRoot (disk : Disk m) (first : DiskPath) : ExceptT CheckFault m DiskPath := do
  match ← disk.kind? first with
  | none => throw (.missingPath first)
  | some .file => return first.parent?.getD (.ofText ".")
  | some .directory => return first

/-- The Lua files at a path. The settings choose among the files below a directory; a file that is named itself is always
taken. -/
def discover (disk : Disk m) (root : DiskPath) (config : Config) (p : DiskPath) :
    ExceptT CheckFault m (List DiskPath) := do
  match ← disk.kind? p with
  | none => throw (.missingPath p)
  | some .file => return if isLuaFile p then [p] else []
  | some .directory =>
    let below ← disk.filesBelow isVisible p
    let files := below.map fun names => p.join { pieces := names }
    return files.filter fun file => isLuaFile file && isSelected config (relativeName root file)

def loadConfig (disk : Disk m) (root : DiskPath) : m Config.Loaded := do
  let candidates := root.ancestors.map (·.join (.ofText Config.fileName))
  match ← candidates.findM? fun p => do return (← disk.kind? p).isSome with
  | none => return {}
  | some p =>
    match ← disk.read p with
    | .ok bytes => return .orDefault (Config.ofBytes p.text bytes)
    | .error reason => return { notices := [.unreadable p.text reason] }

def readText? (disk : Disk m) (p : DiskPath) : m (Option String) := do
  match ← disk.read p with
  | .ok bytes => return Utf8.decode? bytes
  | .error _ => return none

def readSource (disk : Disk m) (root file : DiskPath) : ExceptT CheckFault m (String × String) := do
  match ← (readText? disk file : m (Option String)) with
  | some text => return (relativeName root file, text)
  | none => throw (.unreadable file)

/-! ## Analysis -/

/-- The files that the walk from the entry files has not reached. -/
def unreached (p : Project) : List String :=
  (p.files.ids.filter fun id => !(p.result.any (·.tables.files.contains id))).map p.files.path

/-- Checks the files from the entry files on, and then every other file. -/
def checkAll (entries : List String) : Session Unit := do
  discard <| Session.check entries
  (unreached (← get)).forM fun path => discard (Session.checkScattered path)

def projectOf (config : Config) (realtime : Bool) (sources : List (String × String)) : Project :=
  sources.foldl (fun p (path, text) => (p.addFile path text).1) ((Project.ofConfig config).setRealtime realtime)

def analyse (config : Config) (a : CheckArguments) (sources : List (String × String)) :
    Except AnalysisError (List Diagnostic) :=
  let session : Session (List Diagnostic) := do
    checkAll a.entries
    Session.allDiagnostics
  (session.runOn (projectOf config a.realtime sources)).1

/-! ## The command -/

def exitCode (failOnWarnings : Bool) (ds : List Diagnostic) : Nat :=
  if ds.any (·.severity == .error) || (failOnWarnings && ds.any (·.severity == .warning)) then 1 else 0

/-- The report, with the texts of the files that it is about as they are found under their names. -/
def report (disk : Disk m) (a : CheckArguments) (colored : Bool) (root : DiskPath) (files : Nat)
    (ds : List Diagnostic) : m String := do
  match a.format with
  | .json => return (Report.json root.text files ds).render 0 ++ "\n"
  | .pretty =>
    let names := (ds.map (·.file)).eraseDups
    let sources ← names.mapM fun name => do return (name, ← readText? disk (root.join (.ofText name)))
    return Report.terminal colored (fun name => (OrderedMap.find? name sources).join) ds

def runWith (disk : Disk m) (a : CheckArguments) (colored : Bool) (root : DiskPath) (config : Config) :
    ExceptT CheckFault m Outcome := do
  let found ← a.targets.mapM (discover disk root config)
  let files := inOrder found.flatten
  if files.isEmpty then return { output := "No Lua files found.\n" }
  let sources ← files.mapM (readSource disk root)
  match analyse config a sources with
  | .error e => throw (.analysis e)
  | .ok ds =>
    let output ← (report disk a colored root files.length ds : m String)
    return { exitCode := exitCode a.failOnWarnings ds, output }

/-- A fault ends the command with exit code 1. -/
def settle : Except CheckFault Outcome → Outcome
  | .ok o => o
  | .error e => { exitCode := 1, notices := [s!"Error: {e.message}"] }

def run (disk : Disk m) (colors : ColorChoice) (a : CheckArguments) : m Outcome := do
  let colored := !a.noColor && !colors.refused && (colors.forced || colors.terminal)
  let first := a.targets.headD (.ofText ".")
  match ← (projectRoot disk first).run with
  | .error e => return settle (.error e)
  | .ok root =>
    let loaded ← loadConfig disk root
    let label := Ink.paint colored [.bold, .yellow] "warning:"
    let warnings := loaded.notices.map fun n => s!"{label} {n.message}"
    let outcome := settle (← (runWith disk a colored root loaded.config).run)
    return { outcome with notices := warnings ++ outcome.notices }

end Disk

end Check

end LuaAnalysis
