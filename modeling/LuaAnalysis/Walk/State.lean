import LuaAnalysis.Analysis.ModuleValue
import LuaAnalysis.Diagnostic.Suppression
import LuaAnalysis.Pass.Phase
import LuaAnalysis.Tree.Narrowing
import LuaAnalysis.Walk.Occurrence

/-!
# The state of a walk

One walk serves every pass. It reads its surroundings (`WalkEnv`), and its state holds the symbols found so far, the
tables shared between files, and the frame of the file that is being walked. What is not reported does not get into the
frame, and is not even looked for where that would take long.
-/

namespace LuaAnalysis

structure WalkEnv where
  pass : Pass
  realtime : Bool := false
  config : Config := {}
  files : FileIndex := .empty
  annotations : AnnotationTable := {}
  /-- The results of walking every file alone; empty while that is being done. -/
  firstPass : FirstPass := {}
  suppression : Suppression := {}
deriving Inhabited

/-- What lets findings about a file into its diagnostics. -/
structure Gate where
  pass : Pass := .fileLocal
  realtime : Bool := false
  path : String := ""
  suppression : Suppression := {}
  directives : Directives := {}
deriving DecidableEq, Repr, Inhabited

namespace Gate

/-- Whether the pass looks for findings of a kind. -/
def checks (g : Gate) (kind : Kind) : Bool :=
  g.pass.reports kind g.realtime

/-- Whether neither the settings nor a directive on its line switch a finding off. -/
def accepts (g : Gate) (d : Diagnostic) : Bool :=
  !g.suppression.isSuppressed g.path d.kind && !g.directives.isDisabled d.range.start.line d.kind.name d.kind.code

def admits (g : Gate) (d : Diagnostic) : Bool :=
  g.checks d.kind && g.accepts d

end Gate

/-- What a walk knows about the file that it is in. -/
structure Frame where
  file : FileId := default
  path : String := ""
  annotations : Annotations := {}
  gate : Gate := {}
  function : FunctionId := default
  scope : ScopeId := default
  /-- Names that enclosing operands of `and` and `or` prove not to be nil, the innermost first. -/
  guards : List NameSet := []
  /-- The target of a statement `x = x or default` that is being walked. -/
  selfTarget : Option String := none
  globals : OrderedMap String VariableId := {}
  rootGlobals : OrderedMap String VariableId := {}
  undefined : OrderedMap String (List TextRange) := {}
  references : List ReferenceId := []
  findings : Array Diagnostic := #[]
deriving DecidableEq, Repr, Inhabited

def Frame.accept (f : Frame) (d : Diagnostic) : Frame :=
  if f.gate.admits d then { f with findings := f.findings.push d } else f

structure LoadSite where
  file : FileId
  range : TextRange
deriving DecidableEq, Repr, Inhabited

structure Walk where
  store : Store := {}
  tables : ProjectTables := {}
  /-- The values of the loads met so far. -/
  loaded : OrderedMap (FileId × LoadKind) (Option VariableId) := {}
  phase : PhaseTracker
  /-- The loads that suspended files wait for, the innermost first. -/
  loadSites : List LoadSite := []
  occurrences : Array Occurrence := #[]
  frame : Frame := {}
deriving DecidableEq, Repr, Inhabited

def Walk.start (pass : Pass) : Walk :=
  { phase := { pass } }

abbrev WalkM := StateM Walk

namespace WalkM

/-! ## Parts of the state -/

@[inline] def ask (f : Store → α) : WalkM α := do
  return f (← get).store

@[inline] def frame : WalkM Frame := do
  return (← get).frame

@[inline] def changeStore (f : Store → Store) : WalkM Unit :=
  modify fun w => { w with store := f w.store }

@[inline] def changeFrame (f : Frame → Frame) : WalkM Unit :=
  modify fun w => { w with frame := f w.frame }

@[inline] def add (f : Store → Store × α) : WalkM α :=
  modifyGet fun w =>
    let (s, a) := f w.store
    (a, { w with store := s })

/-! ## Findings -/

def report (kind : Kind) (message : String) (range : TextRange) (related : List RelatedPlace := []) : WalkM Unit :=
  changeFrame fun f => f.accept { kind, message, file := f.path, range, related }

def reportFinding (finding : Finding) : WalkM Unit :=
  changeFrame fun f => f.accept (finding.toDiagnostic f.path)

def reportAll (findings : List Finding) : WalkM Unit :=
  findings.forM reportFinding

def checks (kind : Kind) : WalkM Bool := do
  return (← frame).gate.checks kind

/-- Looks for findings of a kind if the pass reports it. -/
def whenChecked (kind : Kind) (look : WalkM Unit) : WalkM Unit := do
  if ← checks kind then look

/-! ## Scopes -/

/-- A finding for a local that is never read, with the statements that assign to it. -/
def unusedFinding? (v : Variable) : Option Finding :=
  if v.flags.used || v.flags.parameter || v.flags.toBeClosed || v.name.startsWith "_" || v.aliasOf.isSome then none
  else
    let (kind, what) :=
      if v.function.isSome then (Kind.unusedLocalFunction, "unused local function")
      else (Kind.unusedLocal, "unused local")
    some
      { kind
        message := s!"{what} '{v.name}'"
        range := v.range
        related := v.assignSites.map (⟨"declared and not used, this just assign", ·⟩) }

def closeScope (scope : ScopeId) : WalkM Unit := do
  if (← checks .unusedLocal) || (← checks .unusedLocalFunction) then
    reportAll (← ask fun s => (s.localsOf scope).filterMap fun v => unusedFinding? (s.variableAt v))

def withScope (kind : ScopeKind) (range : TextRange) (body : WalkM α) : WalkM α := do
  let outer ← frame
  let scope ← add (·.addScope kind (some outer.scope) outer.function range)
  changeStore (·.modifyFunction outer.function fun f => { f with scopeDepth := f.scopeDepth + 1 })
  changeFrame ({ · with scope })
  let result ← body
  closeScope scope
  changeStore (·.modifyFunction outer.function fun f => { f with scopeDepth := f.scopeDepth - 1 })
  changeFrame ({ · with scope := outer.scope })
  return result

/-- Walks something that is only reached when the names of a guard are not nil. -/
def withGuard (guard : NameSet) (body : WalkM α) : WalkM α := do
  changeFrame fun f => { f with guards := guard :: f.guards }
  let result ← body
  changeFrame fun f => { f with guards := f.guards.tail }
  return result

def withSelfTarget (target : Option String) (body : WalkM α) : WalkM α := do
  let outer := (← frame).selfTarget
  changeFrame ({ · with selfTarget := target })
  let result ← body
  changeFrame ({ · with selfTarget := outer })
  return result

/-- Walks the inside of a function: a guard around it proves nothing when it runs. -/
def inFunction (function : FunctionId) (body : WalkM α) : WalkM α := do
  let outer ← frame
  let scope ← ask fun s => (s.functionAt function).mainScope
  changeFrame ({ · with function, scope, guards := [], selfTarget := none })
  let result ← body
  changeFrame
    ({ · with function := outer.function, scope := outer.scope, guards := outer.guards, selfTarget := outer.selfTarget })
  return result

end WalkM

end LuaAnalysis
