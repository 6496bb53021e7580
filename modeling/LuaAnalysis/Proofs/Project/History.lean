import LuaAnalysis.Proofs.File.Registry
import LuaAnalysis.Proofs.Project.Passes

/-!
# Projects as their operations leave them

`Reachable` projects come from an empty one by operations. A reachable project that keeps first-pass
results keeps those of its present files and settings, so that questions about it can be read as
questions about the files.
-/

namespace LuaAnalysis.Project

open List

/-- Projects that come about by adding files and asking questions. -/
inductive Reachable : Project → Prop
  | ofConfig (config : Config) : Reachable (.ofConfig config)
  | addFile {p : Project} (h : Reachable p) (path text : String) : Reachable (p.addFile path text).1
  | setRealtime {p : Project} (h : Reachable p) (realtime : Bool) :
      Reachable (p.setRealtime realtime)
  | runFirstPass {p : Project} (h : Reachable p) : Reachable p.runFirstPass.1
  | firstPassResult {p p' : Project} {path : String} {r : FileResult} (h : Reachable p)
      (hq : p.firstPassResult path = .ok (p', r)) : Reachable p'
  | check {p p' : Project} {entries : List String} {r : ProjectResult} (h : Reachable p)
      (hq : p.check entries = .ok (p', r)) : Reachable p'
  | checkScattered {p p' : Project} {path : String} {r : FileResult} (h : Reachable p)
      (hq : p.checkScattered path = .ok (p', r)) : Reachable p'
  | classify {p p' : Project} {path : String} {spans : List ColorSpan} (h : Reachable p)
      (hq : p.classify path = .ok (p', spans)) : Reachable p'
  | findReferences {p p' : Project} {path : String} {position : Position}
      {places : List SymbolLocation}
      (h : Reachable p) (hq : p.findReferences path position = .ok (p', places)) : Reachable p'

theorem reachable_pair : pair.Reachable :=
  .addFile (.addFile (.ofConfig {}) _ _) _ _

/-- What is kept of the first pass is what walking the files now would give. -/
def Fresh (p : Project) : Prop :=
  ∀ firstPass ∈ p.firstPass, firstPass = p.computeFirstPass

variable {p p' : Project} {path : String}
variable {f : FileId} {entries : List String} {r : ProjectResult} {a : FileAnalysis}

/-- The project with the walks of its files alone at hand. -/
def withFirstPass (p : Project) : Project :=
  { p with firstPass := some p.computeFirstPass }

theorem Fresh.ensureFirstPass (h : p.Fresh) :
    p.ensureFirstPass = (p.withFirstPass, p.computeFirstPass) := by
  unfold Project.ensureFirstPass
  cases hfirst : p.firstPass with
  | none => rfl
  | some firstPass =>
    obtain rfl : firstPass = p.computeFirstPass := h firstPass hfirst
    dsimp only
    rw [withFirstPass, ← hfirst]

theorem fresh_withFirstPass (p : Project) : p.withFirstPass.Fresh := by
  rintro firstPass ⟨⟩
  rfl

theorem fresh_of_none (h : p.firstPass = none) : p.Fresh := by
  intro firstPass hmem
  rw [h] at hmem
  cases hmem

/-! ## What the operations do with the project -/

theorem of_bind_eq_ok {ε α β : Type} {x : Except ε α} {f : α → Except ε β} {b : β}
    (h : x >>= f = .ok b) : ∃ a, x = .ok a ∧ f a = .ok b := by
  cases x with
  | error e => cases h
  | ok a => exact ⟨a, rfl, h⟩

/-- A question that is answered leaves files and settings as they were, and no outdated results. -/
def Asks (p : Project) (x : Except AnalysisError (Project × α)) : Prop :=
  ∀ p' a, x = .ok (p', a) → p'.Fresh ∧ p'.invalidate = p.invalidate

theorem Asks.bind {α β : Type} {x : Except AnalysisError β}
    {next : β → Except AnalysisError (Project × α)} (h : ∀ b, p.Asks (next b)) : p.Asks (x >>=
      next) := by
  intro p' a hx
  obtain ⟨b, -, hb⟩ := of_bind_eq_ok hx
  exact h b p' a hb

theorem asks_ok {α : Type} {a : α} {result : Option ProjectResult}
    {scattered : OrderedMap FileId FileResult} :
    p.Asks (.ok ({ p.withFirstPass with result, scattered }, a)) := by
  rintro _ _ ⟨⟩
  exact ⟨p.fresh_withFirstPass, rfl⟩

theorem asks_firstPassResult (hp : p.Fresh) : p.Asks (p.firstPassResult path) := by
  refine .bind fun id => ?_
  rw [hp.ensureFirstPass]
  dsimp only
  split
  · exact asks_ok
  · exact nofun

theorem check_apply (hp : p.Fresh) :
    p.check entries =
      (if entries.isEmpty then .ok p.files.ids else entries.mapM p.fileId) >>= fun ids =>
      let result := p.walkFrom p.computeFirstPass ids
      .ok ({ p.withFirstPass with result := some result }, result) := by
  rw [check, hp.ensureFirstPass]
  split <;> rfl

/-- A check keeps the files and stores its result. -/
theorem of_check (hp : p.Fresh) (h : p.check entries = .ok (p', r)) :
    p' = { p.withFirstPass with result := some r } := by
  rw [check_apply hp] at h
  obtain ⟨ids, -, h⟩ := of_bind_eq_ok h
  cases h
  rfl

theorem asks_check (hp : p.Fresh) : p.Asks (p.check entries) := by
  rw [check_apply hp]
  exact .bind fun _ => asks_ok

theorem asks_checkScattered (hp : p.Fresh) : p.Asks (p.checkScattered path) := by
  refine .bind fun id => ?_
  rw [hp.ensureFirstPass]
  dsimp only
  generalize (WalkM.walkAlone _ id).run _ = out
  obtain ⟨_ | result, w⟩ := out
  · exact nofun
  · exact asks_ok

theorem asks_classify (hp : p.Fresh) : p.Asks (p.classify path) := by
  refine .bind fun id => ?_
  rw [hp.ensureFirstPass]
  exact asks_ok

theorem asks_findReferences {position : Position} (hp : p.Fresh) :
    p.Asks (p.findReferences path position) := by
  refine .bind fun id => ?_
  rw [hp.ensureFirstPass]
  dsimp only
  split <;> exact asks_ok

theorem orderly_addFile (h : ∃ texts, FileIndex.Orderly texts ∧ p.files = .ofTexts texts)
    (path text : String) :
    ∃ texts, FileIndex.Orderly texts ∧ (p.addFile path text).1.files = .ofTexts texts := by
  obtain ⟨texts, horderly, hfiles⟩ := h
  refine ⟨_, horderly.insert path text, ?_⟩
  change (p.files.insert path text).1 = _
  rw [hfiles, FileIndex.insert_ofTexts]

theorem Reachable.fresh_and_files (h : p.Reachable) :
    p.Fresh ∧ ∃ texts, FileIndex.Orderly texts ∧ p.files = .ofTexts texts := by
  have hask : ∀ {p p' : Project}, p'.Fresh ∧ p'.invalidate = p.invalidate →
      (∃ texts, FileIndex.Orderly texts ∧ p.files = .ofTexts texts) →
        p'.Fresh ∧ ∃ texts, FileIndex.Orderly texts ∧ p'.files = .ofTexts texts := by
    rintro p p' ⟨hfresh, hkeep⟩ hfiles
    have hsame := congrArg Project.files hkeep
    change p'.files = p.files at hsame
    exact ⟨hfresh, hsame ▸ hfiles⟩
  induction h with
  | ofConfig => exact ⟨fresh_of_none rfl, {}, FileIndex.orderly_empty, rfl⟩
  | addFile _ path text ih => exact ⟨fresh_of_none rfl, orderly_addFile ih.2 path text⟩
  | setRealtime _ _ ih => exact ⟨fresh_of_none rfl, ih.2⟩
  | runFirstPass _ ih => exact ⟨fresh_withFirstPass _, ih.2⟩
  | firstPassResult _ hq ih => exact hask (asks_firstPassResult ih.1 _ _ hq) ih.2
  | check _ hq ih => exact hask (asks_check ih.1 _ _ hq) ih.2
  | checkScattered _ hq ih => exact hask (asks_checkScattered ih.1 _ _ hq) ih.2
  | classify _ hq ih => exact hask (asks_classify ih.1 _ _ hq) ih.2
  | findReferences _ hq ih => exact hask (asks_findReferences ih.1 _ _ hq) ih.2

theorem Reachable.fresh (h : p.Reachable) : p.Fresh :=
  h.fresh_and_files.1

theorem Reachable.files_eq (h : p.Reachable) :
    ∃ texts, FileIndex.Orderly texts ∧ p.files = .ofTexts texts :=
  h.fresh_and_files.2

theorem Reachable.parsed (h : p.Reachable) {source : SourceFile}
    (hsource : p.files.get? f = some source) : ∃ text, source.source = Source.parse text := by
  obtain ⟨texts, -, hfiles⟩ := h.files_eq
  rw [hfiles, FileIndex.get?_ofTexts] at hsource
  obtain ⟨e, -, rfl⟩ := Option.map_eq_some_iff.1 hsource
  exact ⟨e.2, rfl⟩

/-! ## What the questions answer -/

/-- The files that a check starts from. -/
def entryIds (p : Project) (entries : List String) : List FileId :=
  if entries.isEmpty then p.files.ids else entries.filterMap p.files.idOf?

/-- All entries are files of the project. -/
def Registered (p : Project) (entries : List String) : Prop :=
  ∀ path ∈ entries, (p.files.idOf? path).isSome

theorem fileId_of_isSome (h : (p.files.idOf? path).isSome) :
    ∃ f, p.files.idOf? path = some f ∧ p.fileId path = .ok f := by
  obtain ⟨f, hf⟩ := Option.isSome_iff_exists.1 h
  refine ⟨f, hf, ?_⟩
  rw [fileId, hf]

theorem mapM_fileId (h : p.Registered entries) :
    entries.mapM p.fileId = .ok (entries.filterMap p.files.idOf?) := by
  induction entries with
  | nil => rfl
  | cons path entries ih =>
    obtain ⟨f, hid, hf⟩ := fileId_of_isSome (h path mem_cons_self)
    rw [mapM_cons, hf, ih fun q hq => h q (mem_cons_of_mem path hq), filterMap_cons_some hid]
    rfl

theorem entryIds_of_registered (h : p.Registered entries) :
    (if entries.isEmpty then .ok p.files.ids else entries.mapM p.fileId) =
      .ok (p.entryIds entries) := by
  rw [entryIds, mapM_fileId h]
  split <;> rfl

/-- A check of registered entries succeeds. -/
theorem check_eq (hp : p.Fresh) (h : p.Registered entries) :
    ∃ p', p.check entries = .ok (p', p.walkFrom p.computeFirstPass (p.entryIds entries)) := by
  rw [check_apply hp, entryIds_of_registered h]
  exact ⟨_, rfl⟩

theorem registered_of_mapM {ids : List FileId} (h : entries.mapM p.fileId = .ok ids) :
    p.Registered entries := by
  induction entries generalizing ids with
  | nil => exact fun _ h => nomatch h
  | cons path entries ih =>
    rw [mapM_cons] at h
    obtain ⟨f, hf, h⟩ := of_bind_eq_ok h
    obtain ⟨fs, hfs, -⟩ := of_bind_eq_ok h
    refine forall_mem_cons.2 ⟨?_, ih hfs⟩
    unfold fileId at hf
    split at hf
    · next hid => simp [hid]
    · cases hf

theorem registered_of_check (hp : p.Fresh) (h : p.check entries = .ok (p', r)) :
    p.Registered entries := by
  rw [check_apply hp] at h
  obtain ⟨ids, hids, -⟩ := of_bind_eq_ok h
  split at hids
  · next hempty =>
    rw [isEmpty_iff.1 hempty]
    exact fun _ h => nomatch h
  · exact registered_of_mapM hids

theorem mem_ids_of_idOf? (h : p.files.idOf? path = some f) : f ∈ p.files.ids :=
  (FileIndex.of_get?_byPath h).1

theorem idOf?_path_of_orderly (h : ∃ texts, FileIndex.Orderly texts ∧ p.files = .ofTexts texts)
    (hf : f ∈ p.files.ids) : p.files.idOf? (p.files.path f) = some f := by
  obtain ⟨texts, horderly, hfiles⟩ := h
  rw [hfiles] at hf ⊢
  exact horderly.idOf?_path hf

theorem checkScattered_eq (hp : p.Fresh) (hf : p.files.idOf? path = some f) : ∃ r,
    p.checkScattered path = .ok ({ p.withFirstPass with scattered := p.scattered.insert f r }, r) ∧
      (WalkM.walkAlone (p.env .scattered p.computeFirstPass) f (.start .scattered)).1 = some r := by
  obtain ⟨r, w, heq, -⟩ :=
    (WalkM.idle_start (p.env .scattered p.computeFirstPass) .scattered).walks (mem_ids_of_idOf? hf)
  have hid : p.fileId path = .ok f := by rw [fileId, hf]
  have hout : (WalkM.walkAlone (p.withFirstPass.env .scattered p.computeFirstPass) f).run
    (.start .scattered) =
      (some r, w) := heq
  refine ⟨r, ?_, congrArg Prod.fst heq⟩
  rewrite [checkScattered, hid, hp.ensureFirstPass]
  dsimp only [bind, Except.bind]
  rewrite [hout]
  rfl

theorem mem_ids_of_mem_entryIds (h : f ∈ p.entryIds entries) : f ∈ p.files.ids := by
  unfold entryIds at h
  split at h
  · exact h
  · obtain ⟨path, -, hid⟩ := mem_filterMap.1 h
    exact mem_ids_of_idOf? hid

/-! ## The first pass -/

theorem analyse?_of_not_mem (hf : f ∉ p.files.ids) : p.analyse? f = none :=
  Option.eq_none_iff_forall_not_mem.2 fun _ h => hf (walks_of_analyse? h).1

theorem file_of_analyse? (h : p.analyse? f = some a) : a.result.file = f := by
  obtain ⟨-, w, hwalks, -⟩ := walks_of_analyse? h
  exact hwalks.file_eq

theorem find?_filterMap_analyse? {xs : List FileId} :
    (xs.filterMap p.analyse?).find? (·.result.file == f) =
      if f ∈ xs then p.analyse? f else none := by
  induction xs with
  | nil => rfl
  | cons g xs ih =>
    cases hg : p.analyse? g with
    | none =>
      rw [filterMap_cons_none hg, ih]
      by_cases hfg : f = g
      · simp [hfg, hg]
      · simp [hfg]
    | some a =>
      rw [filterMap_cons_some hg, find?_cons, file_of_analyse? hg]
      by_cases hfg : f = g
      · simp [hfg, hg]
      · have hne : (g == f) = false := by simpa using fun heq : g = f => hfg heq.symm
        simp [hne, hfg, ih]

/-- The first pass has one analysis for each file. -/
theorem get?_computeFirstPass : p.computeFirstPass.get? f = p.analyse? f := by
  rw [computeFirstPass, FirstPass.get?, find?_filterMap_analyse?]
  by_cases hf : f ∈ p.files.ids
  · rw [if_pos hf]
  · rw [if_neg hf, analyse?_of_not_mem hf]

theorem mem_computeFirstPass :
    a ∈ p.computeFirstPass.analyses ↔ ∃ f ∈ p.files.ids, p.analyse? f = some a :=
  mem_filterMap

end LuaAnalysis.Project
