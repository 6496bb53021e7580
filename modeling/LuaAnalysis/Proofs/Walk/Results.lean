import LuaAnalysis.Project.Session
import LuaAnalysis.Proofs.Walk.Entry

/-!
# Walks of registered files

The walk of a registered file gives a result, whatever was walked before, so that a walk that may
fail never does as long as it keeps to registered files. Every result that a walk leaves has the
path of the file that it is kept for.
-/

namespace LuaAnalysis

/-! ## Steps that may fail -/

variable {x : FileIndex} {r : FileResult} {entries : List FileId}

section

variable {ε σ α β : Type} {m : ExceptT ε (StateM σ) α}
  {next : α → ExceptT ε (StateM σ) β} {s s' : σ}

theorem run_bind_of_ok {a : α} (h : m.run s = (.ok a, s')) :
    (m >>= next).run s = (next a).run s' := by
  change ExceptT.bindCont next (m.run s).1 (m.run s).2 = _
  rw [h]
  rfl

theorem run_bind_of_error {e : ε} (h : m.run s = (.error e, s')) :
    (m >>= next).run s = (.error e, s') := by
  change ExceptT.bindCont next (m.run s).1 (m.run s).2 = _
  rw [h]
  rfl

theorem run_map_of_ok {a : α} {g : α → β} (h : m.run s = (.ok a, s')) :
    (g <$> m).run s = (.ok (g a), s') :=
  run_bind_of_ok h

theorem run_map_of_error {e : ε} {g : α → β} (h : m.run s = (.error e, s')) :
    (g <$> m).run s = (.error e, s') :=
  run_bind_of_error h

theorem run_discard_of_ok {a : α} (h : m.run s = (.ok a, s')) : (discard m).run s = (.ok (), s') :=
  run_bind_of_ok h

theorem run_lift {x : StateM σ α} :
    (liftM x : ExceptT ε (StateM σ) α).run s = (.ok (x s).1, (x s).2) := rfl

end

/-! ## Paths of results -/

theorem FileIndex.path_of_get? {f : FileId} {source : SourceFile} (h : x.get? f = some source) :
    x.path f = source.path := by
  rw [FileIndex.path, h]
  rfl

/-- Every result has the path of the file that it is listed under. -/
def FileIndex.Filed (x : FileIndex) (results : OrderedMap FileId FileResult) : Prop :=
  ∀ f r, results.get? f = some r → r.path = x.path f

theorem FileIndex.filed_empty : x.Filed {} :=
  nofun

namespace WalkM

variable {env : WalkEnv} {f : FileId} {es : List Event} {w w' : Walk}

theorem Enlists.filed {t : FileId} (h : Enlists t r w w') (hw : x.Filed w.tables.files)
    (hr : r.path = x.path t) : x.Filed w'.tables.files := by
  rw [h.files]
  exact OrderedMap.forall_get?_insert hw hr

/-- A file's result has its path, whether or not the file parses. -/
theorem Walks.path_eq (h : Walks env f w r w') : r.path = env.files.path f := by
  cases h with
  | broken hfile => exact (FileIndex.path_of_get? hfile).symm
  | read hread => exact (FileIndex.path_of_get? hread.file).symm

mutual

theorem Run.filed {f : FileId} {es : List Event} {ms : List Mention} {w w' : Walk}
    (h : Run env f es ms w w') (hw : env.files.Filed w.tables.files) :
    env.files.Filed w'.tables.files := by
  match h with
  | .done _ _ => exact hw
  | .quiet hq _ rest =>
    apply rest.filed
    rwa [hq.quiet.files]
  | .step hs _ rest =>
    apply rest.filed
    rwa [hs.files]
  | .stay hs rest =>
    apply rest.filed
    rwa [hs.tables]
  | .away _ _ inner hres rest => exact rest.filed (hres.filed (inner.filed hw) inner.path_eq)

theorem Walks.filed {f : FileId} {r : FileResult} {w w' : Walk} (h : Walks env f w r w')
    (hw : env.files.Filed w.tables.files) : env.files.Filed w'.tables.files := by
  match h with
  | .broken _ _ => exact hw
  | .read _ run => exact run.filed hw

end

theorem Visits.filed (h : Visits env f w w') (hw : env.files.Filed w.tables.files) :
    env.files.Filed w'.tables.files := by
  cases h with
  | again => exact hw
  | first _ hwalks => exact (enlists_walked ..).filed (hwalks.filed hw) hwalks.path_eq

/-! ## Walks that may fail -/

theorem walkOrFail_of_some (h : walkAlone env f w = (some r, w')) :
    (walkOrFail env f).run w = (.ok r, w') := by
  have hlift : (liftM (walkAlone env f) : ExceptT AnalysisError WalkM _).run w =
      (.ok (some r), w') := by
    rw [run_lift, h]
  exact run_bind_of_ok hlift

/-- A file of the project is always walked between walks: the failure branch is never taken. -/
theorem Idle.walkOrFail (h : Idle env w) (hf : f ∈ env.files.ids) :
    ∃ r w', WalkM.walkAlone env f w = (some r, w') ∧ (WalkM.walkOrFail env f).run w = (.ok r, w') ∧
      r.path = env.files.path f := by
  obtain ⟨r, w', halone, hwalks⟩ := h.walks hf
  exact ⟨r, w', halone, walkOrFail_of_some halone, hwalks.path_eq⟩

theorem Idle.walkEntryOrFail (h : Idle env w) (hp : env.pass = .project) (hf : f ∈ env.files.ids) :
    (WalkM.walkEntryOrFail env f).run w = (.ok (), (WalkM.walkEntry env f w).2) := by
  have hget : (get : ExceptT AnalysisError WalkM Walk).run w = (.ok w, w) := rfl
  have hiff : w.tables.isWalked f = true ↔ f ∈ w.tables.files.keys := OrderedMap.contains_iff
  unfold WalkM.walkEntryOrFail
  rw [run_bind_of_ok hget]
  rcases h.walkEntry_cases hp hf with ⟨hmem, hsame⟩ | ⟨hnew, r, w₁, halone, -, hwalked⟩
  · rw [if_pos (hiff.2 hmem), hsame]
    rfl
  · rw [if_neg (mt hiff.1 hnew), run_bind_of_ok (walkOrFail_of_some halone), hwalked]
    rw [run_lift, changeTables_apply, if_pos hp]
    rfl

/-- Steps that never fail between walks, one after the other. -/
theorem forM_of_ok {ε α : Type} {m : α → ExceptT ε WalkM PUnit} {m' : α → WalkM PUnit} {xs : List α}
    (hstep : ∀ x ∈ xs, ∀ w, Idle env w → (m x).run w = (.ok (), (m' x w).2) ∧ Idle env (m' x w).2)
    (hw : Idle env w) : (xs.forM m).run w = (.ok (), (xs.forM m' w).2) := by
  induction xs generalizing w with
  | nil => rfl
  | cons x xs ih =>
    rw [List.forall_mem_cons] at hstep
    obtain ⟨hx, hnext⟩ := hstep.1 w hw
    rw [forM_cons_apply, ← ih hstep.2 hnext]
    exact run_bind_of_ok hx

theorem Idle.forM_walkEntryOrFail (h : Idle env w) (hp : env.pass = .project)
    (hentries : ∀ f ∈ entries, f ∈ env.files.ids) :
    (entries.forM (WalkM.walkEntryOrFail env)).run w =
      (.ok (), (entries.forM (WalkM.walkEntry env) w).2) :=
  forM_of_ok (fun f hf _ hw => ⟨hw.walkEntryOrFail hp (hentries f hf), hw.walkEntry hp f⟩) h

theorem Idle.forM_walkOrFail (h : Idle env w) {files : List FileId}
    (hfiles : ∀ f ∈ files, f ∈ env.files.ids) :
    (files.forM fun f => discard (WalkM.walkOrFail env f)).run w =
      (.ok (), ((files.forM fun f => discard (WalkM.walkAlone env f)) w).2) := by
  refine forM_of_ok (fun f hf w hw => ⟨?_, hw.walkAlone f⟩) h
  obtain ⟨r, w', halone, hok, -⟩ := hw.walkOrFail (hfiles f hf)
  have hdiscard : (discard (WalkM.walkAlone env f) w).2 = (WalkM.walkAlone env f w).2 := rfl
  rw [hdiscard, halone]
  exact run_discard_of_ok hok

end WalkM

end LuaAnalysis
