import LuaAnalysis.Walk.Visit

/-!
# Walking files

A walk of a file may enter other files. `available` lists the files that may still be entered; each file on the way from
the first one is taken out of it, so that the walk ends.
-/

namespace LuaAnalysis

def WalkEnv.gate (env : WalkEnv) (file : SourceFile) : Gate where
  pass := env.pass
  realtime := env.realtime
  path := file.path
  suppression := env.suppression
  directives := file.source.directives

/-- Whether a pass reports a finding about a file: the pass has to report its kind, and neither the settings nor a
directive on its line may switch it off. -/
def WalkEnv.keeps (env : WalkEnv) (file : SourceFile) (d : Diagnostic) : Bool :=
  (env.gate file).admits d

def SourceFile.syntaxDiagnostic (file : SourceFile) (e : SyntaxError) : Diagnostic :=
  { kind := .syntaxError
    message := e.message
    file := file.path
    range := ⟨e.position, e.position.right 1⟩ }

namespace WalkM

/-- Walks something in the frame of another file; gives that frame at its end, and puts back the one before. -/
def withFrame (inner : Frame) (body : WalkM Unit) : WalkM Frame := do
  let outer ← frame
  changeFrame fun _ => inner
  body
  let last ← frame
  changeFrame fun _ => outer
  return last

def whileEntered (file : FileId) (body : WalkM α) : WalkM α := do
  modify fun w => { w with phase := w.phase.enter file }
  let result ← body
  modify fun w => { w with phase := w.phase.leave }
  return result

def walkChunk (env : WalkEnv) (enter : Enter) (file : FileId) (source : SourceFile) (chunk : Chunk) :
    WalkM FileResult := do
  let main ← add (·.addFunction (.main file chunk.range))
  let scope ← ask fun s => (s.functionAt main).mainScope
  let inner : Frame :=
    { file
      path := source.path
      annotations := env.annotations.ofFile source.path
      gate := env.gate source
      function := main
      scope }
  let last ← whileEntered file (withFrame inner do
    visitBlock env enter chunk.block
    finishFunction main)
  let returnValue ← ask fun s => (s.functionAt main).lastValueReturn?.bind (·.value)
  return {
    file
    path := source.path
    globals := last.globals
    rootGlobals := last.rootGlobals
    undefined := last.undefined
    diagnostics := last.findings.toList
    references := last.references
    mainFunction := some main
    returnValue }

/-- Walks a file; none when there is no such file. -/
def walkFile (env : WalkEnv) (available : List FileId) (file : FileId) : WalkM (Option FileResult) :=
  match env.files.get? file with
  | none => return none
  | some source =>
    match source.source.tree with
    | .error e =>
      return some
        { file, path := source.path, diagnostics := [source.syntaxDiagnostic e].filter (env.keeps source) }
    | .ok chunk =>
      let enter (target : FileId) : WalkM (Option FileResult) :=
        if target ∈ available then walkFile env (available.erase target) target else return none
      some <$> walkChunk env enter file source chunk
termination_by available.length
decreasing_by
  have := List.length_erase_of_mem ‹target ∈ available›
  have := List.length_pos_of_mem ‹target ∈ available›
  omega

def walkAlone (env : WalkEnv) (file : FileId) : WalkM (Option FileResult) :=
  walkFile env (env.files.ids.erase file) file

/-- Walks an entry file, unless an earlier one has reached it. -/
def walkEntry (env : WalkEnv) (file : FileId) : WalkM Unit := do
  if (← get).tables.isWalked file then return
  match ← walkAlone env file with
  | some result => changeTables env fun t => { t with files := t.files.insert file result }
  | none => return

end WalkM

end LuaAnalysis
