import LuaAnalysis.Proofs.Walk.Skeleton

/-!
# Walks one after another

Between the walks of entry files no file is being walked (`Idle`). Each walk starts there and comes
back there.
-/

namespace LuaAnalysis

theorem FileIndex.mem_ids_iff (x : FileIndex) (f : FileId) :
    f ∈ x.ids ↔ ∃ source, x.get? f = some source := by
  constructor
  · intro hf
    obtain ⟨source, hsource, rfl⟩ := List.mem_map.1 hf
    exact ⟨source, x.get?_id (Array.mem_toList_iff.1 hsource)⟩
  · rintro ⟨source, hsource⟩
    exact List.mem_map.2 ⟨source, Array.mem_toList_iff.2 (Array.mem_of_getElem? hsource),
      x.placed f.index source hsource⟩

variable {f : FileId}

theorem WalkEnv.skeleton_of_not_mem {env : WalkEnv} (hf : f ∉ env.files.ids) :
    env.skeleton f = {} := by
  have hnone : env.chunk? f = none := by
    rw [WalkEnv.chunk?, Option.bind_eq_none_iff]
    exact fun source hsource => absurd ((env.files.mem_ids_iff f).2 ⟨source, hsource⟩) hf
  rw [WalkEnv.skeleton, hnone]

namespace WalkM

variable {env : WalkEnv} {w : Walk}

/-- No file is being walked, and the results so far show the skeletons of their files. -/
structure Idle (env : WalkEnv) (w : Walk) : Prop extends Accounts env [] [] w where
  wellFormed : w.store.WellFormed
  active : w.phase.active = []

theorem idle_start (env : WalkEnv) (pass : Pass) : Idle env (.start pass) where
  wellFormed := Store.wellFormed_empty
  active := rfl
  fits _ _ h := nomatch h
  mains _ hmain := absurd hmain (by simp [Walk.start, Store.mains])

theorem covers_ids : Covers env (env.files.ids.erase f) [f] := by
  intro _ t source ht hne
  rw [List.mem_singleton] at hne
  exact (List.mem_erase_of_ne hne).2 ((env.files.mem_ids_iff t).2 ⟨source, ht⟩)

theorem Idle.walks (h : Idle env w) (hf : f ∈ env.files.ids) :
    ∃ r w', walkAlone env f w = (some r, w') ∧ Walks env f w r w' := by
  refine walks_walkFile w h.wellFormed ?_ ((env.files.mem_ids_iff f).1 hf)
  rw [h.active]
  exact covers_ids

theorem Idle.of_walks {r : FileResult} {w' : Walk} (h : Idle env w) (hwalks : Walks env f w r w') :
    Idle env w' ∧ Fits env w'.store [] f r := by
  obtain ⟨haccounts, hfit⟩ := hwalks.accounts h.wellFormed (by simp) h.toAccounts
  have hback := hwalks.comesBack
  exact ⟨⟨haccounts, hback.store.wellFormed h.wellFormed, hback.active.trans h.active⟩, hfit⟩

theorem walkAlone_of_not_mem (hf : f ∉ env.files.ids) : walkAlone env f w = (none, w) := by
  refine walkFile_of_none ?_
  rw [Option.eq_none_iff_forall_not_mem]
  exact fun source hsource => hf ((env.files.mem_ids_iff f).2 ⟨source, hsource⟩)

theorem Idle.walkAlone (h : Idle env w) (f : FileId) : Idle env (walkAlone env f w).2 := by
  by_cases hf : f ∈ env.files.ids
  · obtain ⟨r, w', heq, hwalks⟩ := h.walks hf
    rw [heq]
    exact (h.of_walks hwalks).1
  · rw [walkAlone_of_not_mem hf]
    exact h

def walked (f : FileId) (r : FileResult) (w : Walk) : Walk :=
  { w with tables := { w.tables with files := w.tables.files.insert f r } }

theorem enlists_walked (f : FileId) (r : FileResult) (w : Walk) : Enlists f r w (walked f r w) where
  store := .refl _
  imported := rfl
  occurrences := rfl
  mains := rfl
  marked := rfl
  globals := rfl
  rootGlobals := rfl
  files := rfl
  loaded _ := .inl

theorem Idle.walkEntry_cases (h : Idle env w) (hp : env.pass = .project) (hf : f ∈ env.files.ids) :
    f ∈ w.tables.files.keys ∧ (walkEntry env f w).2 = w ∨ f ∉ w.tables.files.keys ∧ ∃ r w₁,
      WalkM.walkAlone env f w = (some r, w₁) ∧ Walks env f w r w₁ ∧
      (walkEntry env f w).2 = walked f r w₁ := by
  obtain ⟨r, w₁, heq, hwalks⟩ := h.walks hf
  have hiff : w.tables.isWalked f = true ↔ f ∈ w.tables.files.keys := OrderedMap.contains_iff
  rw [walkEntry, bind_apply, get_apply]
  dsimp only
  by_cases hwalked : f ∈ w.tables.files.keys
  · rw [if_pos (hiff.2 hwalked)]
    exact .inl ⟨hwalked, rfl⟩
  · refine .inr ⟨hwalked, r, w₁, heq, hwalks, ?_⟩
    rw [if_neg (mt hiff.1 hwalked), bind_apply, heq]
    dsimp only
    rw [changeTables_apply, if_pos hp]
    rfl

/-- How an entry file takes the walk from the first state to the last. -/
inductive Visits (env : WalkEnv) (f : FileId) (w : Walk) : Walk → Prop
  | again (h : f ∈ w.tables.files.keys) : Visits env f w w
  | first {r : FileResult} {w₁ : Walk} (hnew : f ∉ w.tables.files.keys) (h : Walks env f w r w₁) :
    Visits env f w (walked f r w₁)

theorem Idle.visits (h : Idle env w) (hp : env.pass = .project) (hf : f ∈ env.files.ids) :
    Visits env f w (walkEntry env f w).2 := by
  rcases h.walkEntry_cases hp hf with ⟨hmem, hw⟩ | ⟨hnew, r, w₁, -, hwalks, hw⟩
  · rw [hw]
    exact .again hmem
  · rw [hw]
    exact .first hnew hwalks

theorem walkEntry_of_not_mem (hf : f ∉ env.files.ids) : (walkEntry env f w).2 = w := by
  rw [walkEntry, bind_apply, get_apply]
  dsimp only
  split
  · rfl
  · rw [bind_apply, walkAlone_of_not_mem hf]
    rfl

theorem Idle.of_visits {w' : Walk} (h : Idle env w) (hv : Visits env f w w') : Idle env w' := by
  cases hv with
  | again => exact h
  | first _ hwalks =>
    obtain ⟨hidle, hfit⟩ := h.of_walks hwalks
    exact ⟨hidle.enlist hidle.wellFormed (enlists_walked ..) hfit, hidle.wellFormed, hidle.active⟩

theorem Idle.walkEntry (h : Idle env w) (hp : env.pass = .project) (f : FileId) :
    Idle env (walkEntry env f w).2 := by
  by_cases hf : f ∈ env.files.ids
  · exact h.of_visits (h.visits hp hf)
  · rw [walkEntry_of_not_mem hf]
    exact h

theorem forM_cons_apply {α : Type} {m : α → WalkM PUnit} {x : α} {xs : List α} :
    (x :: xs).forM m w = xs.forM m (m x w).2 := rfl

theorem Idle.forM {α : Type} {m : α → WalkM PUnit} (hm : ∀ a w, Idle env w → Idle env (m a w).2)
    {xs : List α} (h : Idle env w) : Idle env (xs.forM m w).2 := by
  induction xs generalizing w with
  | nil => exact h
  | cons x xs ih =>
    rw [forM_cons_apply]
    exact ih (hm x w h)

theorem Idle.forM_walkEntry {P : Walk → Prop} (h : Idle env w) (hp : env.pass = .project)
    {entries : List FileId} (hentries : ∀ f ∈ entries, f ∈ env.files.ids)
    (hstep : ∀ f ∈ entries, ∀ w w', Idle env w → P w → Visits env f w w' → P w') (hstart : P w) :
    P (entries.forM (WalkM.walkEntry env) w).2 := by
  induction entries generalizing w with
  | nil => exact hstart
  | cons f entries ih =>
    rw [List.forall_mem_cons] at hentries hstep
    rw [forM_cons_apply]
    exact ih (h.walkEntry hp f) hentries.2 hstep.2 (hstep.1 w _ h hstart (h.visits hp hentries.1))

end WalkM

end LuaAnalysis
