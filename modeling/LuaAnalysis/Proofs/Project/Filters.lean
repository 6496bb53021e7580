import LuaAnalysis.Proofs.Project.Run
import LuaAnalysis.Proofs.Walk.Sift

/-!
# What is not reported is only left out

Settings, directives and real-time use decide which diagnostics a walk looks for and lets through,
and nothing else. `Project.unfiltered` is the project in which everything is reported; a run in the
project is the run in the unfiltered one, with the diagnostics of every file sifted
(`outcome_eq_sift`).
-/

namespace LuaAnalysis

/-! ## Projects that report everything -/

def SourceFile.withoutDirectives (file : SourceFile) : SourceFile :=
  { file with source := { file.source with directives := {} } }

/-- The same files, in which no directive counts. -/
def FileIndex.withoutDirectives (x : FileIndex) : FileIndex where
  files := x.files.map (·.withoutDirectives)
  byPath := x.byPath
  placed i file h := by
    obtain ⟨old, hold, rfl⟩ := Option.map_eq_some_iff.1 (Array.getElem?_map ▸ h)
    exact x.placed i old hold
  located path id h := by
    obtain ⟨file, hfile, hpath⟩ := x.located path id h
    exact ⟨file.withoutDirectives, by rw [Array.getElem?_map, hfile, Option.map_some], hpath⟩

def FileIndex.directives (x : FileIndex) (f : FileId) : Directives :=
  ((x.get? f).map (·.source.directives)).getD {}

namespace Project

/-- The project without all that may keep a diagnostic from being reported, and without results. -/
def unfiltered (p : Project) : Project :=
  { config := { p.config with diagnostics := {} }, files := p.files.withoutDirectives,
    annotations := p.annotations }

/-- Whether a diagnostic of a file passes the settings for its path, the directives on the line
where it starts and, in real-time use, the choice of kinds. -/
def shows (p : Project) : Sieve := fun f d =>
  !p.suppression.isSuppressed (p.files.path f) d.kind
    && !(p.files.directives f).isDisabled d.range.start.line d.kind.name d.kind.code
    && (!p.realtime || d.kind.isRealtime)

end Project

def FileResult.withoutDiagnostics (r : FileResult) : FileResult :=
  { r with diagnostics := [] }

variable {shows : Sieve} {f : FileId} {pass : Pass}

namespace PassOutcome

def sift (shows : Sieve) (o : PassOutcome) : PassOutcome :=
  { o with results := o.results.map (·.map (·.sift shows)), tables := o.tables.sift shows }

def withoutDiagnostics (o : PassOutcome) : PassOutcome :=
  { o with
    results := o.results.map (·.map (·.withoutDiagnostics))
    tables := { o.tables with files := o.tables.files.mapValues (·.withoutDiagnostics) } }

theorem withoutDiagnostics_sift {o : PassOutcome} :
    (o.sift shows).withoutDiagnostics = o.withoutDiagnostics := by
  have hfile (r : FileResult) : (r.sift shows).withoutDiagnostics = r.withoutDiagnostics := rfl
  simp only [withoutDiagnostics, sift, ProjectTables.sift, OrderedMap.mapValues, List.map_map,
    Function.comp_def, Option.map_map, hfile]

end PassOutcome

/-! ## The files -/

namespace FileIndex

variable (x : FileIndex)

theorem get?_withoutDirectives :
    x.withoutDirectives.get? f = (x.get? f).map (·.withoutDirectives) :=
  Array.getElem?_map

theorem path_withoutDirectives : x.withoutDirectives.path f = x.path f := by
  unfold path
  rw [get?_withoutDirectives, Option.map_map]
  rfl

theorem ids_withoutDirectives : x.withoutDirectives.ids = x.ids := by
  simp [ids, withoutDirectives, SourceFile.withoutDirectives, Function.comp_def]

theorem findBySuffix?_withoutDirectives (candidate : String) :
    x.withoutDirectives.findBySuffix? candidate = x.findBySuffix? candidate := by
  simp [findBySuffix?, withoutDirectives, SourceFile.withoutDirectives, Array.find?_map,
    Function.comp_def]

end FileIndex

namespace Project

open WalkM

variable (p : Project)

variable {file : SourceFile}

theorem keeps_unfiltered {first : FirstPass} {d : Diagnostic} :
    (p.unfiltered.env pass first).keeps file.withoutDirectives d = d.kind.passes.contains pass := by
  show (d.kind.passes.contains pass && (d.kind.isRealtime || true) && (true && true)) = _
  simp only [Bool.or_true, Bool.and_true]

theorem keeps_eq_shows (h : p.files.get? f = some file) {first first' : FirstPass}
    (d : Diagnostic) :
    (p.env pass first).keeps file d =
      ((p.unfiltered.env pass first').keeps file.withoutDirectives d && p.shows f d) := by
  have hpath : p.files.path f = file.path := by rw [FileIndex.path, h]; rfl
  have hdirectives : p.files.directives f = file.source.directives := by
    rw [FileIndex.directives, h]; rfl
  rw [keeps_unfiltered, shows, hpath, hdirectives]
  show (_ && _ && (!p.suppression.isSuppressed _ _ && _)) = _
  rw [Bool.and_assoc, Bool.and_comm (_ || _), Bool.or_comm]
  rfl

theorem sifted_env (pass : Pass) {first first' : FirstPass} (h : first = first'.sift p.shows) :
    (p.env pass first).Sifted p.shows (p.unfiltered.env pass first') where
  pass := rfl
  globals := rfl
  imports := rfl
  target load module := by
    show Load.target? p.files p.config.imports load module =
      Load.target? p.files.withoutDirectives p.config.imports load module
    unfold Load.target?
    rw [funext p.files.findBySuffix?_withoutDirectives]
  annotations := rfl
  path f := p.files.path_withoutDirectives.symm
  ids := p.files.ids_withoutDirectives.symm
  firstPass := h
  files f := by
    show Option.Rel _ (p.files.get? f) (p.files.withoutDirectives.get? f)
    rw [FileIndex.get?_withoutDirectives]
    cases hfile : p.files.get? f with
    | none => exact .none
    | some file => exact .some ⟨rfl, rfl, p.keeps_eq_shows hfile⟩

theorem analyse?_eq_sift (f : FileId) :
    p.analyse? f = (p.unfiltered.analyse? f).map (·.sift p.shows) := by
  have henv : (p.env .fileLocal {}).Sifted p.shows (p.unfiltered.env .fileLocal {}) :=
    p.sifted_env .fileLocal rfl
  obtain ⟨fr, hrun, -⟩ :=
    (follows_walkAlone (F := fun _ _ => True) henv f).run (.start .fileLocal) {} trivial
  have hstart : walkAlone (p.env .fileLocal {}) f (.start .fileLocal) = _ := hrun
  rw [analyse?_eq, analyse?_eq, hstart, Option.map_map, Option.map_map]
  rfl

theorem firstPassFor_eq_sift (pass : Pass) :
    p.firstPassFor pass = (p.unfiltered.firstPassFor pass).sift p.shows := by
  have hlater : p.computeFirstPass = p.unfiltered.computeFirstPass.sift p.shows := by
    unfold computeFirstPass FirstPass.sift
    rw [funext p.analyse?_eq_sift, List.map_filterMap]
    exact congrArg (fun ids => FirstPass.mk (List.filterMap _ ids))
      p.files.ids_withoutDirectives.symm
  cases pass with
  | fileLocal => rfl
  | _ => exact hlater

/-! ## Runs -/

theorem follows_walkNext {env full : WalkEnv} (h : env.Sifted shows full) (f : FileId) :
    FollowsResult shows (fun _ _ => True) (walkNext env f) (walkNext full f) := by
  unfold FollowsResult walkNext
  rw [h.pass]
  split
  · simp only [map_bind, map_pure]
    refine .bind (follows_walkEntry h) fun _ => .get_sifted fun w _ _ => ?_
    dsimp only [Walk.sift, ProjectTables.sift]
    rw [OrderedMap.get?_mapValues]
    exact .pure
  · exact follows_walkAlone h f

theorem mapM_sift {m m' : FileId → WalkM (Option FileResult)}
    (h : ∀ f, FollowsResult shows (fun _ _ => True) (m f) (m' f)) (files : List FileId) (w : Walk)
    (fr : Frame) : ∃ last, files.mapM m (w.sift shows fr) =
      ((files.mapM m' w).1.map (·.map (·.sift shows)), (files.mapM m' w).2.sift shows last) := by
  induction files generalizing w fr with
  | nil => exact ⟨fr, rfl⟩
  | cons f files ih =>
    obtain ⟨next, hfirst, -⟩ := (h f).run w fr trivial
    obtain ⟨last, hrest⟩ := ih (m' f w).2 next
    refine ⟨last, ?_⟩
    rw [List.mapM_cons, List.mapM_cons]
    simp only [bind_apply]
    rw [hfirst, hrest]
    rfl

theorem outcome_eq_sift {files : List FileId} :
    p.outcome pass files = (p.unfiltered.outcome pass files).sift p.shows := by
  obtain ⟨last, hrun⟩ :=
    mapM_sift (follows_walkNext (p.sifted_env pass (p.firstPassFor_eq_sift pass))) files
    (.start pass) {}
  unfold outcome
  have hstart : (p.walks pass files).run (.start pass) = _ := hrun
  rw [hstart]
  rfl

/-- Two projects that differ in their filters alone have the same runs, but for diagnostics; and of
the diagnostics that are found for a file, in order, each project reports those that its own filters
let through. -/
theorem outcome_filtered {p q : Project} (h : p.unfiltered = q.unfiltered) (pass : Pass)
    (files : List FileId) :
    (p.outcome pass files).withoutDiagnostics = (q.outcome pass files).withoutDiagnostics ∧
      p.outcome pass files = (p.unfiltered.outcome pass files).sift p.shows := by
  refine ⟨?_, p.outcome_eq_sift⟩
  rw [p.outcome_eq_sift, q.outcome_eq_sift, PassOutcome.withoutDiagnostics_sift,
    PassOutcome.withoutDiagnostics_sift, h]

/-- The two files that load each other, in real-time use and without a word on names that nothing
defines. -/
def quietPair : Project :=
  { pair with realtime := true, suppression := Suppression.disable {} .undefinedGlobal }

theorem outcome_filtered_quietPair : quietPair.unfiltered = pair.unfiltered ∧
    (quietPair.outcome .project [⟨0⟩]).withoutDiagnostics =
      (pair.outcome .project [⟨0⟩]).withoutDiagnostics ∧
      quietPair.outcome .project [⟨0⟩] =
        (quietPair.unfiltered.outcome .project [⟨0⟩]).sift quietPair.shows :=
  have hsame : quietPair.unfiltered = pair.unfiltered := rfl
  ⟨hsame, outcome_filtered hsame .project [⟨0⟩]⟩

end Project

end LuaAnalysis
