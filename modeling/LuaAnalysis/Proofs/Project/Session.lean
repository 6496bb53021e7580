import LuaAnalysis.Proofs.Project.Edits
import LuaAnalysis.Proofs.Walk.Results

/-!
# Failures leave no traces

A session may fail after any of its steps. On a project that operations have led to, only the first
step of a question can fail, the one that looks up the paths: the first pass has a result for each
file, walks of registered files do not fail, and what is kept for a file is about that file. Hence a
question fails exactly if it names a file that was never added, and then the project is as it was.
-/

namespace LuaAnalysis

open FileIndex List WalkM

variable {path : String} {entries : List String}

theorem isSome_idOf?_ofTexts {texts : OrderedMap String String} :
    ((ofTexts texts).idOf? path).isSome ↔ Path.normalize path ∈ texts.keys := by
  rw [idOf?, get?_byPath_ofTexts_eq, Option.isSome_map, isSome_idxOf?]

namespace Project

def Query.paths : Query → List String
  | fileId path | firstPassResult path | checkScattered path | findReferences path _ | classify path
  | diagnostics path => [path]
  | check entries => entries
  | firstPass | allDiagnostics | globalSymbols | lastCheck => []

/-- What a project keeps is about the files that it has, and each file has a path of its own. -/
structure Consistent (p : Project) : Prop where
  files : ∃ texts, FileIndex.Orderly texts ∧ p.files = .ofTexts texts
  fresh : p.Fresh
  reached : ∀ r ∈ p.result, p.files.Filed r.tables.files
  scattered : p.files.Filed p.scattered

namespace Consistent

variable {p : Project}

theorem withFirstPass (h : p.Consistent) : p.withFirstPass.Consistent :=
  ⟨h.files, p.fresh_withFirstPass, h.reached, h.scattered⟩

theorem invalidate (h : ∃ texts, FileIndex.Orderly texts ∧ p.files = .ofTexts texts) :
    p.invalidate.Consistent :=
  ⟨h, fresh_of_none rfl, nofun, filed_empty⟩

theorem path_firstPass (h : p.Consistent) {f : FileId} {a : FileAnalysis}
    (ha : p.firstPass.bind (·.get? f) = some a) : a.result.path = p.files.path f := by
  obtain ⟨firstPass, hfirst, hget⟩ := Option.bind_eq_some_iff.1 ha
  rw [h.fresh firstPass hfirst, get?_computeFirstPass] at hget
  obtain ⟨-, w, hwalks, -⟩ := walks_of_analyse? hget
  exact hwalks.path_eq

theorem path_laterResult? (h : p.Consistent) {f : FileId} {r : FileResult}
    (hr : p.laterResult? f = some r) : r.path = p.files.path f := by
  unfold laterResult? at hr
  cases hreached : p.result.bind (·.tables.files.get? f) with
  | none =>
    rw [hreached] at hr
    exact h.scattered f r hr
  | some r' =>
    obtain ⟨result, hresult, hget⟩ := Option.bind_eq_some_iff.1 hreached
    rw [hreached] at hr
    cases hr
    exact h.reached result hresult f r hget

end Consistent

end Project

variable {added : List String}

namespace Session

open Project (Query Answer)

def perform : Query → Session Answer
  | .fileId path => .fileId <$> fileId path
  | .firstPass => .firstPass <$> runFirstPass
  | .firstPassResult path => .fileResult <$> firstPassResult path
  | .check entries => .check <$> check entries
  | .checkScattered path => .fileResult <$> checkScattered path
  | .findReferences path position => .places <$> findReferences path position
  | .classify path => .spans <$> classify path
  | .diagnostics path => .diagnostics <$> diagnostics path
  | .allDiagnostics => .diagnostics <$> allDiagnostics
  | .globalSymbols => do return .globalSymbols (← get).globalSymbols
  | .lastCheck => do return .lastCheck (← get).result

variable {p : Project} {path : String} {f : FileId}

/-! ## Steps -/

theorem run_get : (get : Session Project).run p = (.ok p, p) := rfl

theorem run_modify {change : Project → Project} :
    (modify change : Session PUnit).run p = (.ok (), change p) := rfl

theorem run_fileId (path : String) (p : Project) : (fileId path).run p = (p.fileId path, p) := by
  unfold fileId Project.fileId
  rw [run_bind_of_ok (run_get)]
  cases p.files.idOf? path <;> rfl

theorem run_ensureFirstPass (hp : p.Fresh) : ensureFirstPass.run p = (.ok (), p.withFirstPass) := by
  have hensure := hp.ensureFirstPass
  unfold ensureFirstPass
  rw [run_bind_of_ok (run_get)]
  unfold Project.ensureFirstPass at hensure
  cases hfirst : p.firstPass with
  | none => rfl
  | some firstPass =>
    rw [hfirst] at hensure
    have hsame : p.withFirstPass = p := (congrArg Prod.fst hensure).symm
    rw [hsame]
    rfl

theorem run_walk {α : Type} {pass : Pass} {m : WalkEnv → ExceptT AnalysisError WalkM α} {a : α}
    {w : Walk} (h : (m (p.env pass p.computeFirstPass)).run (.start pass) = (.ok a, w)) :
    (walk pass m).run p.withFirstPass = (.ok (a, w), p.withFirstPass) := by
  have hfirst : firstPass.run p.withFirstPass = (.ok p.computeFirstPass, p.withFirstPass) := rfl
  have henv : (m (p.withFirstPass.env pass p.computeFirstPass)).run.run (.start pass) =
    (.ok a, w) := h
  unfold walk
  rw [run_bind_of_ok hfirst, run_bind_of_ok run_get, henv]
  rfl

theorem run_names (hf : f ∈ p.files.ids) :
    (names f).run p.withFirstPass = (.ok (p.namesOf p.computeFirstPass f), p.withFirstPass) := by
  obtain ⟨r, w, halone, hok, -⟩ :=
    (idle_start (p.env .coloring p.computeFirstPass) .coloring).walkOrFail hf
  unfold names
  rw [run_bind_of_ok (run_walk hok)]
  have hnames : p.namesOf p.computeFirstPass f = Project.inTextOrder
      (walkAlone (p.env .coloring p.computeFirstPass) f (.start .coloring)).2.occurrences.toList :=
      rfl
  rw [hnames, halone]
  rfl

theorem run_search {files : List FileId} (hfiles : ∀ f ∈ files, f ∈ p.files.ids) :
    (walk .referenceSearch fun env => files.forM fun f =>
      discard (walkOrFail env f)).run p.withFirstPass =
      (.ok ((),
        ((files.forM fun f => discard (walkAlone (p.env .referenceSearch p.computeFirstPass) f))
        (.start .referenceSearch)).2), p.withFirstPass) :=
  run_walk ((idle_start (p.env .referenceSearch p.computeFirstPass)
    .referenceSearch).forM_walkOrFail hfiles)

/-! ## Questions -/

/-- A session and a question have the same answer and lead to the same project, which has the files
of `p` still. -/
def Succeeds {α : Type} (p : Project) (m : Session α)
    (x : Except AnalysisError (Project × α)) : Prop :=
  ∃ a p', m.run p = (.ok a, p') ∧ x = .ok (p', a) ∧ p'.files = p.files ∧ p'.Consistent

/-- What a session that names some paths does with a project, and what the question does with it. -/
inductive Settles {α : Type} (p : Project) (paths : List String) :
    Except AnalysisError α × Project → Project × Except AnalysisError α → Prop
  | answered {a : α} {p' : Project} (known : p.Registered paths) (files : p'.files = p.files)
      (consistent : p'.Consistent) : Settles p paths (.ok a, p') (p', .ok a)
  | refused {path : String} (first : paths.find? (fun path => (p.files.idOf? path).isNone) =
      some path) :
    Settles p paths (.error (.unknownFile path), p) (p, .error (.unknownFile path))

theorem find?_of_registered {paths : List String} (h : p.Registered paths) :
    paths.find? (fun path => (p.files.idOf? path).isNone) = none := by
  rw [find?_eq_none]
  intro path hpath
  have hsome := h path hpath
  rw [Option.isNone_iff_eq_none]
  exact Option.isSome_iff_ne_none.1 hsome

namespace Settles

variable {α : Type} {paths : List String} {out : Except AnalysisError α × Project}
  {asked : Project × Except AnalysisError α}
  {e : AnalysisError}

theorem files (h : Settles p paths out asked) : out.2.files = p.files := by
  cases h with
  | answered _ files _ => exact files
  | refused => rfl

theorem consistent (h : Settles p paths out asked) (hp : p.Consistent) : out.2.Consistent := by
  cases h with
  | answered _ _ consistent => exact consistent
  | refused => exact hp

theorem eq_swap (h : Settles p paths out asked) : out = asked.swap := by
  cases h <;> rfl

theorem ok_iff (h : Settles p paths out asked) : (∃ a, out.1 = .ok a) ↔ p.Registered paths := by
  cases h with
  | answered known => exact ⟨fun _ => known, fun _ => ⟨_, rfl⟩⟩
  | refused first =>
    refine ⟨nofun, fun hknown => ?_⟩
    rw [find?_of_registered hknown] at first
    cases first

theorem error_iff (h : Settles p paths out asked) : out.1 = .error e ↔
    ∃ path, paths.find? (fun path => (p.files.idOf? path).isNone) = some path ∧
      e = .unknownFile path := by
  cases h with
  | answered known =>
    refine ⟨nofun, ?_⟩
    rintro ⟨path, hfind, -⟩
    rw [find?_of_registered known] at hfind
    cases hfind
  | @refused path first =>
    constructor
    · rintro ⟨⟩
      exact ⟨path, first, rfl⟩
    · rintro ⟨path', hfind, rfl⟩
      cases first.symm.trans hfind
      rfl

theorem eq_of_error (h : Settles p paths out asked) (he : out.1 = .error e) : out.2 = p := by
  cases h with
  | answered => cases he
  | refused => rfl

end Settles

theorem settles_fileId {α : Type} {answer : α → Answer} {next : FileId → Session α}
    {next' : FileId → Except AnalysisError (Project × α)}
    (h : ∀ f, p.files.idOf? path = some f → Succeeds p (next f) (next' f)) :
    Settles p [path]
      ((answer <$> (fileId path >>= next)).run p) (p.settle answer (p.fileId path >>= next')) := by
  have hid := run_fileId path p
  unfold Project.fileId at hid ⊢
  cases hfile : p.files.idOf? path with
  | none =>
    rw [hfile] at hid
    have herror : (fileId path >>= next).run p = (.error (.unknownFile path), p) :=
      run_bind_of_error hid
    rw [run_map_of_error herror]
    exact .refused (by simp [hfile])
  | some f =>
    rw [hfile] at hid
    obtain ⟨a, p', hok, hanswer, hfiles, hp'⟩ := h f hfile
    have hrun : (fileId path >>= next).run p = (.ok a, p') := (run_bind_of_ok hid).trans hok
    rw [run_map_of_ok hrun]
    change Settles p [path] _ (p.settle answer (next' f))
    rw [hanswer]
    exact .answered (by simp [Project.Registered, hfile]) hfiles hp'

theorem settles_lookup (hp : p.Consistent) :
    Settles p [path] ((Answer.fileId <$> fileId path).run p)
      (p, Answer.fileId <$> p.fileId path) := by
  have hask : (p, Answer.fileId <$> p.fileId path) =
      p.settle .fileId (p.fileId path >>= fun f => .ok (p, f)) := by
    cases p.fileId path <;> rfl
  rw [hask, ← bind_pure (fileId path)]
  exact settles_fileId fun f _ => ⟨f, p, rfl, rfl, rfl, hp⟩

theorem settles_firstPassResult (hp : p.Consistent) :
    Settles p [path] ((.fileResult <$> firstPassResult path).run p)
      (p.settle .fileResult (p.firstPassResult path)) := by
  refine settles_fileId fun f hf => ?_
  obtain ⟨a, ha⟩ := Project.exists_analyse? _ (Project.mem_ids_of_idOf? hf)
  have hget : p.computeFirstPass.get? f = some a := by rw [Project.get?_computeFirstPass, ha]
  have hkept : p.withFirstPass.firstPass.bind (·.get? f) = some a := hget
  refine ⟨a.result, p.withFirstPass, ?_, ?_, rfl, hp.withFirstPass⟩
  · rw [run_bind_of_ok (run_ensureFirstPass hp.fresh), run_bind_of_ok run_get, hkept]
    rfl
  · rw [hp.fresh.ensureFirstPass]
    dsimp only
    rw [hget]
    rfl

theorem settles_checkScattered (hp : p.Consistent) (path : String) :
    Settles p [path] ((.fileResult <$> checkScattered path).run p)
      (p.settle .fileResult (p.checkScattered path)) := by
  refine settles_fileId fun f hf => ?_
  obtain ⟨r, w, halone, hok, hpath⟩ :=
    (idle_start (p.env .scattered p.computeFirstPass) .scattered).walkOrFail
    (Project.mem_ids_of_idOf? hf)
  have hkept : (p.scattered.insert f r).get? f = some r := by
    rw [OrderedMap.get?_insert, if_pos rfl]
  refine ⟨r, { p.withFirstPass with scattered := p.scattered.insert f r }, ?_, ?_, rfl, ?_⟩
  · rw [run_bind_of_ok (run_ensureFirstPass hp.fresh), run_bind_of_ok (run_walk hok)]
    dsimp only
    rw [run_bind_of_ok run_modify, run_bind_of_ok (run_get)]
    dsimp only [Project.withFirstPass]
    rw [hkept]
    rfl
  · have hout : (walkAlone (p.withFirstPass.env .scattered p.computeFirstPass) f).run
      (.start .scattered) = (some r, w) :=
      halone
    rw [hp.fresh.ensureFirstPass]
    dsimp only
    rw [hout]
    rfl
  · exact ⟨hp.files, p.fresh_withFirstPass, hp.reached,
      OrderedMap.forall_get?_insert hp.scattered hpath⟩

theorem settles_classify (hp : p.Consistent) :
    Settles p [path] ((.spans <$> classify path).run p) (p.settle .spans (p.classify path)) := by
  refine settles_fileId fun f hf => ?_
  refine ⟨(p.namesOf p.computeFirstPass f).map fun o => ⟨o.range, o.symbolClass⟩, p.withFirstPass,
    ?_, ?_, rfl, hp.withFirstPass⟩
  · rw [run_bind_of_ok (run_ensureFirstPass hp.fresh),
      run_bind_of_ok (run_names (Project.mem_ids_of_idOf? hf))]
    rfl
  · rw [hp.fresh.ensureFirstPass]
    rfl

theorem settles_findReferences (hp : p.Consistent) {position : Position} :
    Settles p [path] ((.places <$> findReferences path position).run p)
      (p.settle .places (p.findReferences path position)) := by
  refine settles_fileId fun f hf => ?_
  have hmem := Project.mem_ids_of_idOf? hf
  have hnames : p.withFirstPass.namesOf p.computeFirstPass f = p.namesOf p.computeFirstPass f := rfl
  unfold Succeeds
  rw [run_bind_of_ok (run_ensureFirstPass hp.fresh), run_bind_of_ok (run_names hmem),
    hp.fresh.ensureFirstPass]
  dsimp only
  rw [hnames]
  generalize (p.namesOf p.computeFirstPass f).find? _ = found
  rcases found with - | ⟨name, file, range, role, declaration, symbolClass⟩
  · exact ⟨[], p.withFirstPass, rfl, rfl, rfl, hp.withFirstPass⟩
  cases declaration with
  | none => exact ⟨[], p.withFirstPass, rfl, rfl, rfl, hp.withFirstPass⟩
  | some declaration =>
    refine ⟨_, p.withFirstPass, ?_, rfl, rfl, hp.withFirstPass⟩
    dsimp only
    rw [run_bind_of_ok run_get, run_bind_of_ok (run_search ?_)]
    · rfl
    · intro g hg
      by_cases hlocal : symbolClass.isLocal
      · rw [if_pos hlocal, mem_singleton] at hg
        exact hg ▸ hmem
      · rwa [if_neg hlocal] at hg

/-! ## Checks -/

theorem run_mapM_fileId : (entries.mapM fileId).run p = (entries.mapM p.fileId, p) := by
  induction entries with
  | nil => rfl
  | cons path entries ih =>
    have hid := run_fileId path p
    rw [mapM_cons, mapM_cons]
    cases hfile : p.fileId path with
    | error e =>
      rw [hfile] at hid
      exact run_bind_of_error hid
    | ok f =>
      rw [hfile] at hid
      rw [run_bind_of_ok hid]
      cases hrest : entries.mapM p.fileId with
      | error e =>
        rw [hrest] at ih
        exact run_bind_of_error ih
      | ok fs =>
        rw [hrest] at ih
        exact run_bind_of_ok ih

theorem mapM_fileId_of_find?
    (h : entries.find? (fun path => (p.files.idOf? path).isNone) = some path) :
    entries.mapM p.fileId = .error (.unknownFile path) := by
  induction entries with
  | nil => cases h
  | cons q entries ih =>
    rw [mapM_cons]
    cases hq : p.files.idOf? q with
    | none =>
      rw [find?_cons, hq] at h
      cases h
      rw [Project.fileId, hq]
      rfl
    | some f =>
      rw [find?_cons, hq] at h
      rw [Project.fileId, hq, ih h]
      rfl

theorem run_entryIds (p : Project) (entries : List String) :
    (entryIds entries).run p =
      (if entries.isEmpty then .ok p.files.ids else entries.mapM p.fileId, p) := by
  unfold entryIds
  by_cases hempty : entries.isEmpty
  · rw [if_pos hempty, if_pos hempty]
    rfl
  · rw [if_neg hempty, if_neg hempty]
    exact run_mapM_fileId

theorem settles_check (hp : p.Consistent) (entries : List String) :
    Settles p entries ((.check <$> check entries).run p) (p.settle .check (p.check entries)) := by
  have hids := run_entryIds p entries
  rw [Project.check_apply hp.fresh]
  cases hfirst : entries.find? (fun path => (p.files.idOf? path).isNone) with
  | some path =>
    have hempty : ¬ entries.isEmpty := by
      intro hempty
      rw [isEmpty_iff.1 hempty] at hfirst
      cases hfirst
    rw [if_neg hempty, mapM_fileId_of_find? hfirst] at hids ⊢
    have herror : (check entries).run p = (.error (.unknownFile path), p) := run_bind_of_error hids
    rw [run_map_of_error herror]
    exact .refused hfirst
  | none =>
    have hknown : p.Registered entries := by
      intro path hmem
      rw [Option.isSome_iff_ne_none]
      simpa using find?_eq_none.1 hfirst path hmem
    rw [Project.entryIds_of_registered hknown] at hids ⊢
    have hmem : ∀ f ∈ p.entryIds entries, f ∈ p.files.ids :=
      fun f => Project.mem_ids_of_mem_entryIds
    have hidle := idle_start (p.env .project p.computeFirstPass) .project
    have hrun : (check entries).run p = (.ok (p.walkFrom p.computeFirstPass (p.entryIds entries)),
        { p.withFirstPass with
          result := some (p.walkFrom p.computeFirstPass (p.entryIds entries)) }) := by
      unfold check
      rw [run_bind_of_ok hids, run_bind_of_ok (run_ensureFirstPass hp.fresh),
        run_bind_of_ok (run_walk (hidle.forM_walkEntryOrFail rfl hmem))]
      rfl
    rw [run_map_of_ok hrun]
    refine .answered hknown rfl ⟨hp.files, p.fresh_withFirstPass, ?_, hp.scattered⟩
    rintro r ⟨⟩
    exact hidle.forM_walkEntry rfl hmem (fun _ _ _ _ _ hfiled hvisits => hvisits.filed hfiled)
      filed_empty

/-! ## Diagnostics -/

theorem run_keptDiagnostics {result? : Option FileResult}
    (h : ∀ r ∈ result?, r.path = p.files.path f) :
    (keptDiagnostics f result?).run p = (.ok ((result?.map (·.diagnostics)).getD []), p) := by
  cases result? with
  | none => rfl
  | some r =>
    unfold keptDiagnostics
    rw [run_bind_of_ok run_get, if_pos (h r rfl)]
    rfl

theorem run_diagnostics (hp : p.Consistent) (hf : p.files.idOf? path = some f) :
    (diagnostics path).run p = (.ok (p.diagnosticsOf f), p) := by
  have hid : (fileId path).run p = (.ok f, p) := by rw [run_fileId, Project.fileId, hf]
  have hfirst : ∀ r ∈ (p.firstPass.bind (·.get? f)).map (·.result), r.path = p.files.path f := by
    intro r hr
    obtain ⟨a, ha, rfl⟩ := Option.map_eq_some_iff.1 hr
    exact hp.path_firstPass ha
  have hlater : ∀ r ∈ p.laterResult? f, r.path = p.files.path f := fun r => hp.path_laterResult?
  unfold diagnostics
  rw [run_bind_of_ok hid, run_bind_of_ok run_get, run_bind_of_ok (run_keptDiagnostics hfirst),
    run_bind_of_ok (run_keptDiagnostics hlater), Option.map_map]
  rfl

theorem settles_diagnostics (hp : p.Consistent) :
    Settles p [path] ((Answer.diagnostics <$> diagnostics path).run p)
      (p, Answer.diagnostics <$> p.diagnostics path) := by
  have hask : (p, Answer.diagnostics <$> p.diagnostics path) =
      p.settle .diagnostics (p.fileId path >>= fun f => .ok (p, p.diagnosticsOf f)) := by
    unfold Project.diagnostics
    cases p.fileId path <;> rfl
  rw [hask]
  refine settles_fileId fun f hf => ?_
  have hid : (fileId path).run p = (.ok f, p) := by rw [run_fileId, Project.fileId, hf]
  exact ⟨p.diagnosticsOf f, p, (run_bind_of_ok hid).symm.trans (run_diagnostics hp hf),
    rfl, rfl, hp⟩

theorem run_mapM_of_ok {α β : Type} {m : α → Session β} {g : α → β} {xs : List α}
    (h : ∀ x ∈ xs, (m x).run p = (.ok (g x), p)) : (xs.mapM m).run p = (.ok (xs.map g), p) := by
  induction xs with
  | nil => rfl
  | cons x xs ih =>
    rw [forall_mem_cons] at h
    rw [mapM_cons, run_bind_of_ok h.1, run_bind_of_ok (ih h.2)]
    rfl

theorem run_allDiagnostics (hp : p.Consistent) :
    allDiagnostics.run p = (.ok p.allDiagnostics, p) := by
  have hall : (p.files.files.toList.mapM fun file => diagnostics file.path).run p =
      (.ok (p.files.ids.map p.diagnosticsOf), p) := by
    have hpaths : (p.files.files.toList.mapM fun file => diagnostics file.path) =
        p.files.ids.mapM fun f => diagnostics (p.files.path f) := by
      change p.files.files.toList.mapM (diagnostics ∘ (·.path)) =
        p.files.ids.mapM (diagnostics ∘ p.files.path)
      rw [← mapM_map, ← mapM_map, map_path_ids]
      rfl
    rw [hpaths]
    exact run_mapM_of_ok fun f hf => run_diagnostics hp (Project.idOf?_path_of_orderly hp.files hf)
  unfold allDiagnostics
  rw [run_bind_of_ok run_get, run_bind_of_ok hall]
  rfl

/-! ## Any question -/

theorem settles_perform (hp : p.Consistent) (q : Query) :
    Settles p q.paths ((perform q).run p) (p.ask q) := by
  cases q with
  | fileId path => exact settles_lookup hp
  | firstPass => exact .answered nofun rfl hp.withFirstPass
  | firstPassResult path => exact settles_firstPassResult hp
  | check entries => exact settles_check hp entries
  | checkScattered path => exact settles_checkScattered hp path
  | findReferences path position => exact settles_findReferences hp
  | classify path => exact settles_classify hp
  | diagnostics path => exact settles_diagnostics hp
  | allDiagnostics =>
    unfold perform
    rw [run_map_of_ok (run_allDiagnostics hp)]
    exact .answered nofun rfl hp
  | globalSymbols | lastCheck => exact .answered nofun rfl hp

/-! ## Any operations -/

/-- The project comes from an empty one by operations, whether they succeed or fail; `added` lists
the paths of the files that were added, as they were written. -/
inductive Attained : List String → Project → Prop
  | ofConfig (config : Config) : Attained [] (.ofConfig config)
  | addFile {added : List String} {p : Project} (h : Attained added p) (path text : String) :
    Attained (path :: added) (p.addFile path text).1
  | setRealtime {added : List String} {p : Project} (h : Attained added p) (realtime : Bool) :
    Attained added (p.setRealtime realtime)
  | perform {added : List String} {p : Project} (h : Attained added p) (q : Query) :
    Attained added ((perform q).runOn p).2

def IsAdded (added : List String) (path : String) : Prop :=
  Path.normalize path ∈ added.map Path.normalize

instance (added : List String) (path : String) : Decidable (IsAdded added path) :=
  inferInstanceAs (Decidable (_ ∈ _))

theorem Attained.consistent (h : Attained added p) : p.Consistent := by
  induction h with
  | ofConfig config => exact .invalidate (p := .ofConfig config) ⟨{}, orderly_empty, rfl⟩
  | @addFile _ p h path text ih =>
    exact .invalidate (p := (p.addFile path text).1) (Project.orderly_addFile ih.files path text)
  | @setRealtime _ p h realtime ih => exact .invalidate (p := { p with realtime }) ih.files
  | perform h q ih => exact (settles_perform ih q).consistent ih

theorem Attained.isSome_idOf? (h : Attained added p) :
    (p.files.idOf? path).isSome ↔ IsAdded added path := by
  induction h with
  | ofConfig =>
    simp [IsAdded, Project.ofConfig, FileIndex.idOf?, FileIndex.empty, OrderedMap.get?,
      OrderedMap.find?]
  | @addFile added p h new text ih =>
    obtain ⟨texts, -, hfiles⟩ := h.consistent.files
    change ((p.files.insert new text).1.idOf? path).isSome ↔ _
    unfold IsAdded at ih ⊢
    rw [hfiles] at ih ⊢
    rw [isSome_idOf?_ofTexts] at ih
    rw [insert_ofTexts, isSome_idOf?_ofTexts, OrderedMap.mem_keys_insert, ih, map_cons,
      mem_cons]
  | setRealtime _ _ ih => exact ih
  | perform h q ih =>
    have hfiles := (settles_perform h.consistent q).files
    change (((Session.perform q).run _).2.files.idOf? path).isSome ↔ _
    rwa [hfiles]

/-- After any operations a question is answered exactly if all files that it names have been added.
Otherwise it fails because of the first path whose file is missing, and the project stays as it
was. -/
theorem perform_answered_iff {added : List String} (h : Attained added p) (q : Query) :
    ((∃ a, ((perform q).runOn p).1 = .ok a) ↔ ∀ path ∈ q.paths, IsAdded added path) ∧
      (∀ e, ((perform q).runOn p).1 = .error e ↔
        ∃ path, q.paths.find? (fun path => ¬ IsAdded added path) = some path ∧
          e = .unknownFile path) ∧
      ∀ e, ((perform q).runOn p).1 = .error e → ((perform q).runOn p).2 = p := by
  have hsettles := settles_perform h.consistent q
  have hmissing : (fun path => (p.files.idOf? path).isNone) = fun path =>
      decide (¬ IsAdded added path) := by
    funext path
    rw [Bool.eq_iff_iff, decide_eq_true_iff, ← h.isSome_idOf?, Option.isNone_iff_eq_none,
      Option.not_isSome_iff_eq_none]
  refine ⟨hsettles.ok_iff.trans (forall₂_congr fun path _ => h.isSome_idOf?), fun e => ?_,
    fun e => hsettles.eq_of_error⟩
  rw [← hmissing]
  exact hsettles.error_iff

/-- Two files that load each other, after a check from one of them. -/
def checkedPair : Project :=
  ((perform (.check ["a.lua"])).runOn .pair).2

/-- Another spelling of a path is as good; a missing entry makes a check fail although there is a
result from before. -/
theorem perform_answered_iff_checkedPair : Attained ["b.lua", "a.lua"] checkedPair ∧
    (∃ a, ((perform (.diagnostics ".\\b.lua")).runOn checkedPair).1 = .ok a) ∧
    (perform (.check ["./a.lua", "c.lua", "d.lua"])).runOn checkedPair =
      (.error (.unknownFile "c.lua"), checkedPair) := by
  have hattained : Attained ["b.lua", "a.lua"] checkedPair :=
    .perform (.addFile (.addFile (.ofConfig {}) _ _) _ _) _
  obtain ⟨hanswered, -⟩ := perform_answered_iff hattained (.diagnostics ".\\b.lua")
  obtain ⟨-, herror, hkept⟩ := perform_answered_iff hattained (.check ["./a.lua", "c.lua", "d.lua"])
  have hfails := (herror _).2 ⟨"c.lua", by decide, rfl⟩
  exact ⟨hattained, hanswered.2 (by decide), Prod.ext hfails (hkept _ hfails)⟩

end Session

end LuaAnalysis
