import LuaAnalysis.Proofs.Project.Resolution

/-!
# Runs of a pass

A pass walks some files one after another. `Project.walks` is that walk for any of the passes and
`Project.outcome` what is there at its end. What a project answers is read off such runs
(`walkFrom_eq_outcome`, `announced_eq_outcome`).
-/

namespace LuaAnalysis

def WalkM.walkNext (env : WalkEnv) (f : FileId) : WalkM (Option FileResult) :=
  if env.pass = .project then do
    walkEntry env f
    return (← get).tables.files.get? f
  else walkAlone env f

/-- What is there at the end of a run. -/
structure PassOutcome where
  /-- The results of the files that the pass was told to walk, in order; none for a file that is not
  there. -/
  results : List (Option FileResult)
  store : Store
  tables : ProjectTables
  occurrences : List Occurrence

namespace WalkM

variable {env : WalkEnv} {f : FileId} {w w₁ w' : Walk}

/-- The files `files` have been walked on the way from the first state to the last. -/
structure Advances (env : WalkEnv) (files : List FileId) (w w' : Walk) : Prop where
  idle : Idle env w'
  store : Store.Extends (fun _ => False) w.store w'.store
  fits : ∀ f ∈ files, f ∈ env.files.ids → ∃ r, Fits env w'.store [] f r

theorem Idle.advances_of_walks {r : FileResult} (h : Idle env w) (hwalks : Walks env f w r w') :
    Advances env [f] w w' where
  idle := (h.of_walks hwalks).1
  store := hwalks.comesBack.store
  fits := List.forall_mem_singleton.2 fun _ => ⟨r, (h.of_walks hwalks).2⟩

theorem Idle.advances_of_not_mem (h : Idle env w) (hf : f ∉ env.files.ids) : Advances env [f] w w :=
  ⟨h, .refl _, List.forall_mem_singleton.2 fun hmem => absurd hmem hf⟩

theorem Idle.advances_walkAlone (h : Idle env w) (f : FileId) :
    Advances env [f] w (WalkM.walkAlone env f w).2 := by
  by_cases hf : f ∈ env.files.ids
  · obtain ⟨r, w', heq, hwalks⟩ := h.walks hf
    rw [heq]
    exact h.advances_of_walks hwalks
  · rw [walkAlone_of_not_mem hf]
    exact h.advances_of_not_mem hf

theorem Idle.advances_walkEntry (h : Idle env w) (hp : env.pass = .project) :
    Advances env [f] w (WalkM.walkEntry env f w).2 := by
  by_cases hf : f ∈ env.files.ids
  · have hidle := h.walkEntry hp f
    have hv := h.visits hp hf
    generalize (WalkM.walkEntry env f w).2 = w' at hidle hv
    cases hv with
    | again hmem =>
      obtain ⟨r, hr⟩ := Option.isSome_iff_exists.1 (OrderedMap.mem_keys_iff.1 hmem)
      exact ⟨h, .refl _, List.forall_mem_singleton.2 fun _ => ⟨r, h.fits f r hr⟩⟩
    | first _ hwalks =>
      have hnext := h.advances_of_walks hwalks
      exact ⟨hidle, hnext.store, hnext.fits⟩
  · rw [walkEntry_of_not_mem hf]
    exact h.advances_of_not_mem hf

theorem Idle.advances_walkNext (h : Idle env w) (f : FileId) :
    Advances env [f] w (walkNext env f w).2 := by
  unfold WalkM.walkNext
  split
  · next hp => exact h.advances_walkEntry hp
  · exact h.advances_walkAlone f

theorem Advances.cons {files : List FileId} (h : Advances env [f] w w₁)
    (hrest : Advances env files w₁ w') : Advances env (f :: files) w w' where
  idle := hrest.idle
  store := h.store.trans hrest.store
  fits := by
    refine List.forall_mem_cons.2 ⟨fun hf => ?_, hrest.fits⟩
    obtain ⟨r, hfit⟩ := h.fits f (List.mem_singleton_self f) hf
    exact ⟨r, hfit.extends_false h.idle.wellFormed hrest.store⟩

theorem Idle.advances_mapM (h : Idle env w) (files : List FileId) :
    Advances env files w (files.mapM (walkNext env) w).2 := by
  induction files generalizing w with
  | nil => exact ⟨h, .refl _, nofun⟩
  | cons f files ih =>
    have hfirst := h.advances_walkNext f
    rw [List.mapM_cons]
    exact hfirst.cons (ih hfirst.idle)

end WalkM

namespace Project

def walks (p : Project) (pass : Pass) (files : List FileId) : WalkM (List (Option FileResult)) :=
  files.mapM (WalkM.walkNext (p.env pass (p.firstPassFor pass)))

def outcome (p : Project) (pass : Pass) (files : List FileId) : PassOutcome :=
  let (results, w) := (p.walks pass files).run (.start pass)
  { results, store := w.store, tables := w.tables, occurrences := w.occurrences.toList }

open WalkM

variable {files : List FileId} {p : Project} {pass : Pass}

theorem walks_snd {m : FileId → WalkM Unit}
    (h : ∀ f w, (walkNext (p.env pass (p.firstPassFor pass)) f w).2 = (m f w).2) (w : Walk) :
    (p.walks pass files w).2 = (files.forM m w).2 := by
  unfold walks
  induction files generalizing w with
  | nil => rfl
  | cons f files ih =>
    rw [List.mapM_cons, forM_cons_apply, ← h f w, ← ih]
    rfl

theorem walks_project (p : Project) {entries : List FileId} {w : Walk} :
    (p.walks .project entries w).2 =
      (entries.forM (walkEntry (p.env .project p.computeFirstPass)) w).2 :=
  walks_snd (fun _ _ => rfl) w

theorem walks_of_ne (h : pass ≠ .project) {w : Walk} : (p.walks pass files w).2 =
      (files.forM (fun f => discard (walkAlone (p.env pass (p.firstPassFor pass)) f)) w).2 := by
  refine walks_snd (fun f w => ?_) w
  have hnext : walkNext (p.env pass (p.firstPassFor pass)) f =
    walkAlone (p.env pass (p.firstPassFor pass)) f := if_neg h
  rw [hnext]
  rfl

theorem walkFrom_eq_outcome (p : Project) (entries : List FileId) :
    p.walkFrom p.computeFirstPass entries =
      { store := (p.outcome .project entries).store, entries,
        tables := (p.outcome .project entries).tables } :=
  congrArg (fun w : Walk => ProjectResult.mk w.store entries w.tables) p.walks_project.symm

theorem announced_eq_outcome (p : Project) (pass : Pass) (files : List FileId) :
    p.announced pass files = (p.outcome pass files).occurrences := by
  unfold announced
  by_cases hp : pass = .project
  · subst hp
    rw [if_pos rfl, ← walks_project]
    rfl
  · rw [if_neg hp]
    exact congrArg (fun w : Walk => w.occurrences.toList) (walks_of_ne hp).symm

end Project

end LuaAnalysis
