import LuaAnalysis.Walk.Call

/-!
# Loads

A call of a load function with a literal argument is a load. A walk from entry files goes on with the loaded file, unless
that file is still being walked: then the loads form a cycle. Other passes take the value of a load from the results of
walking every file alone.
-/

namespace LuaAnalysis.WalkM

/-- Walks a file inside the current walk; none when there is no such file. -/
abbrev Enter := FileId → WalkM (Option FileResult)

variable (env : WalkEnv) (enter : Enter)

/-- The load that a call makes and its argument. -/
def loadOf? (w : Walk) (func : Exp) (args : List Exp) : Option (String × LoadKind × String) := do
  let name ← func.asName?
  let load ← LoadKind.ofFunction? env.config.imports name
  if (w.store.lookupLocal? w.frame.scope name).isSome then none
  let module ← (← args.head?).unparen.asString?
  return (name, load, module)

def readLoadFunction (name : String) (range : TextRange) : WalkM Unit :=
  if Builtin.isName name then discard (readName env name range) else notifyUnbound name range .builtin

/-- Walks something while the current file waits for a load. -/
def withLoadSite (site : TextRange) (body : WalkM α) : WalkM α := do
  modify fun w => { w with loadSites := ⟨w.frame.file, site⟩ :: w.loadSites }
  let result ← body
  modify fun w => { w with loadSites := w.loadSites.tail }
  return result

/-- The result of a file that is walked now, unless it has been before. -/
def resultOf (target : FileId) (site : TextRange) : WalkM (Option FileResult) := do
  match (← get).tables.files.get? target with
  | some result => return some result
  | none =>
    match ← withLoadSite site (enter target) with
    | some result =>
      changeTables env fun t => { t with files := t.files.insert target result }
      return some result
    | none => return none

def remember (target : FileId) (load : LoadKind) (value : Option VariableId) : WalkM (Option VariableId) := do
  modify fun w => { w with loaded := w.loaded.insert (target, load) value }
  return value

def moduleValue (reference : ReferenceId) (target : FileId) (load : LoadKind) : WalkM (Option VariableId) := do
  let w ← get
  match w.loaded.get? (target, load) with
  | some value => return value
  | none =>
    match env.pass with
    | .fileLocal => remember target load none
    | .project =>
      if w.phase.isActive target then
        changeStore (·.modifyReference reference ({ · with inProgress := true }))
        return none
      match ← resultOf env enter target (w.store.referenceAt reference).range with
      | some result => remember target load (← add (·.bindModule load result))
      | none => return none
    | .scattered | .referenceSearch | .coloring =>
      match env.firstPass.get? target with
      | some a => remember target load (← add (·.importModule load a))
      | none => remember target load none

def reportCycle (module : String) (target : FileId) (range : TextRange) : WalkM Unit := do
  let path := env.files.path target
  let related := ((← get).loadSites.find? (·.file == target)).map fun site =>
    { file := path, message := s!"'{path}' is suspended on this load", range := site.range : RelatedPlace }
  report .loadOrder s!"circular load: module '{module}' has not finished running" range related.toList

def loadedInfo (load : LoadKind) (reference : ReferenceId) (value : Option VariableId) : WalkM ValueInfo := do
  match value with
  | some v => ask fun s => { s.infoOf v with reference := some reference }
  | none =>
    return { kind := if load = .loadfile then .function else .unknown, reference := some reference }

def visitLoad (load : LoadKind) (module : String) (range : TextRange) : WalkM ValueInfo := do
  let target? := Load.target? env.files env.config.imports load module
  let reference ← add (·.addReference { path := module, load, target := target?, range })
  changeFrame fun f => { f with references := f.references ++ [reference] }
  match target? with
  | none =>
    if !Load.isExternal env.config.imports module then
      report .importNotFound s!"cannot find module '{module}'" range
    loadedInfo load reference none
  | some target =>
    let value ← moduleValue env enter reference target load
    if ← ask fun s => (s.referenceAt reference).inProgress then reportCycle env module target range
    loadedInfo load reference value

end LuaAnalysis.WalkM
