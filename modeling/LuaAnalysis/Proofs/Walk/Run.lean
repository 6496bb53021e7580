import LuaAnalysis.Proofs.Walk.File

/-!
# Runs through several files

`Run` unfolds the loads of a trace: a load either stays in its file, or another file is walked from
its first event to its last (`Walks`) before the file that loads it goes on. Everything that is said
about walks through several files is an induction on runs, and `walks_walkFile` says that walks are
runs. It also says that a walk never gives up on a file: the list of files that may still be entered
holds every file that is not on the stack.
-/

namespace LuaAnalysis.WalkM

open OrderedMap Store

variable {env : WalkEnv} {enter : Enter} {l : LoadCall} {w w₁ w' : Walk}
variable {t : FileId} {available : List FileId} {frame : Frame}

/-! ## Loads that walk no file -/

/-- What a load does that is answered without walking a file. -/
structure Stays (env : WalkEnv) (l : LoadCall) (w w' : Walk) : Prop where
  step : LoadStep env l w w'
  tables : w'.tables = w.tables
  copies : env.firstPass.MirroredIn w.store → env.firstPass.MirroredIn w'.store
  occurrences : w'.occurrences = w.occurrences
  mains : w'.store.mains = w.store.mains
  marked : env.firstPass.Unmarked →
    w'.store.marked = w.store.marked ++ if isCyclic env w l then [nextReference w] else []
  loaded : ∀ q ∈ w'.loaded.keys, q ∈ w.loaded.keys ∨ env.pass ≠ .project ∨ q.1 ∈ w.tables.files.keys
  known : env.pass = .project → ∀ t, l.target? env = some t →
    isCyclic env w l = true ∨ (t, l.kind) ∈ w.loaded.keys ∨ t ∈ w.tables.files.keys

theorem marked_recorded : (recorded env l w).store.marked = w.store.marked := by
  have h := marked_addReference w.store (l.reference env)
  rw [if_neg (by simp [LoadCall.reference]), List.append_nil] at h
  exact h

theorem mirroredIn_recorded (h : env.firstPass.MirroredIn w.store) :
    env.firstPass.MirroredIn (recorded env l w).store :=
  h.of_grows (within_addReference (fun _ => False) w.store (l.reference env)).vars rfl

theorem marked_marking : (marking env l w).marked = w.store.marked ++ [nextReference w] := by
  have hnew : ((marking env l w).referenceAt ⟨w.store.references.size⟩).inProgress = true :=
    congrArg Reference.inProgress referenceAt_marking
  have hsize : (marking env l w).references.size - w.store.references.size = 1 := by
    rw [size_marking]
    omega
  rw [(extends_marking).marked_eq, hsize]
  simp [hnew, nextReference, List.range_succ]

theorem visit_unresolved (h : l.target? env = none) :
    (visit env enter l w).2 = { recorded env l w with frame := (visit env enter l w).2.frame } := by
  rw [visit, visitLoad_apply, h]
  dsimp only
  cases Load.isExternal env.config.imports l.module <;> rfl

theorem visit_resolved (h : l.target? env = some t) :
    ∃ w₁, Fetched env enter (nextReference w) t l.kind (recorded env l w) w₁ ∧
      (visit env enter l w).2 = { w₁ with frame := (visit env enter l w).2.frame } := by
  refine ⟨(moduleValue env enter
    (nextReference w) t l.kind (recorded env l w)).2, fetched_moduleValue _ _ _ _, ?_⟩
  rw [visit, visitLoad_apply, h]
  dsimp only
  rw [bind_apply, bind_apply, ask_apply]
  generalize moduleValue env enter (nextReference w) t l.kind (recorded env l w) = r
  obtain ⟨value, w₁⟩ := r
  dsimp only
  split
  · cases value <;> rfl
  · cases value <;> rfl

/-! ## Loads that walk a file -/

/-- A file that a walk from entry files has neither entered nor walked. -/
structure Unvisited (env : WalkEnv) (w : Walk) (t : FileId) : Prop where
  pass : env.pass = .project
  inactive : t ∉ w.phase.active
  fresh : t ∉ w.tables.files.keys

/-- The file `t` comes among the results. -/
structure Enlists (t : FileId) (r : FileResult) (w w' : Walk) : Prop where
  store : Store.Extends (fun _ => False) w.store w'.store
  imported : w'.store.importedVariables = w.store.importedVariables
  occurrences : w'.occurrences = w.occurrences
  mains : w'.store.mains = w.store.mains
  marked : w'.store.marked = w.store.marked
  globals : w'.tables.globals = w.tables.globals
  rootGlobals : w'.tables.rootGlobals = w.tables.rootGlobals
  files : w'.tables.files = w.tables.files.insert t r
  loaded : ∀ q ∈ w'.loaded.keys, q ∈ w.loaded.keys ∨ q.1 = t

theorem Enlists.keys {r : FileResult} (h : Enlists t r w w') (ht : t ∉ w.tables.files.keys) :
    w'.tables.files.keys = w.tables.files.keys ++ [t] := by
  rw [h.files]
  exact keys_insert_of_not_mem ht

/-- How a file goes on when the walk of the file `t` that it loads has ended in `w₁` with the result
`r`. -/
structure Resumes (env : WalkEnv) (l : LoadCall) (t : FileId) (r : FileResult)
    (w w₁ w' : Walk) : Prop
    extends Enlists t r w₁ w' where
  step : LoadStep env l w w'

def suspended (env : WalkEnv) (l : LoadCall) (w : Walk) (site : TextRange) : Walk :=
  waiting (recorded env l w) site

theorem extends_suspended (env : WalkEnv) (l : LoadCall) (w : Walk) (site : TextRange) :
    Store.Within (fun _ => False) w.store (suspended env l w site).store :=
  within_addReference _ w.store (l.reference env)

theorem not_mem_active (h : w.phase.isActive t = false) : t ∉ w.phase.active := by
  have hcontains : w.phase.active.contains t = false := h
  simpa using hcontains

theorem target_isFile (h : l.target? env = some t) : ∃ source, env.files.get? t = some source := by
  obtain ⟨candidate, -, hfound⟩ := List.exists_of_findSome?_eq_some h
  unfold FileIndex.findBySuffix? at hfound
  dsimp only at hfound
  split at hfound
  · cases hfound
  · obtain ⟨file, hfile, rfl⟩ := Option.map_eq_some_iff.1 hfound
    exact ⟨file, env.files.get?_id (Array.mem_of_find?_eq_some hfile)⟩

theorem Stays.of_remembering {value : Store × Option VariableId}
    (hstep : LoadStep env l w { remembering (recorded env l w) t l.kind value with frame })
    (ht : l.target? env = some t) (hc : closesCycle env w t l.kind = false)
    (hvalue : Store.Within (fun _ => False) (recorded env l w).store value.1)
    (hcopies : env.firstPass.MirroredIn (recorded env l w).store → env.firstPass.MirroredIn value.1)
    (hmarked : env.firstPass.Unmarked → value.1.marked = (recorded env l w).store.marked)
    (hknown : env.pass ≠ .project ∨ t ∈ w.tables.files.keys) :
    Stays env l w { remembering (recorded env l w) t l.kind value with frame } where
  step := hstep
  tables := rfl
  copies h := hcopies (mirroredIn_recorded h)
  occurrences := rfl
  mains := (within_addReference (fun _ => False) w.store (l.reference env)).trans hvalue |>.mains
  marked hu := by
    have hcyclic : isCyclic env w l = false := by simp [isCyclic, ht, hc]
    rw [hcyclic, if_neg Bool.false_ne_true, List.append_nil]
    exact (hmarked hu).trans marked_recorded
  loaded q hq := by
    rcases mem_keys_insert.1 hq with rfl | hq
    · exact .inr hknown
    · exact .inl hq
  known hp t' ht' := by
    obtain rfl : t = t' := by simpa [ht] using ht'
    exact .inr (.inr (hknown.resolve_left fun h => h hp))

theorem Stays.of_recorded (hstep : LoadStep env l w { recorded env l w with frame })
    (hc : isCyclic env w l = false)
    (hknown : ∀ t, l.target? env = some t → (t, l.kind) ∈ w.loaded.keys) :
    Stays env l w { recorded env l w with frame } where
  step := hstep
  tables := rfl
  copies := mirroredIn_recorded
  occurrences := rfl
  mains := (within_addReference (fun _ => False) w.store (l.reference env)).mains
  marked _ := by
    rw [hc]
    simpa using marked_recorded
  loaded _ hq := .inl hq
  known _ t ht := .inr (.inl (hknown t ht))

theorem Stays.of_cycle
    (hstep : LoadStep env l w { recorded env l w with store := marking env l w, frame })
    (hc : isCyclic env w l = true) :
    Stays env l w { recorded env l w with store := marking env l w, frame } where
  step := hstep
  tables := rfl
  copies h := h.of_grows (extends_marking).vars rfl
  occurrences := rfl
  mains := (within_addReference (fun _ => False) w.store (l.reference env)).mains
  marked _ := by
    rw [hc]
    exact marked_marking
  loaded _ hq := .inl hq
  known _ _ _ := .inl hc

theorem visit_cases (he : enter.Returns) (hw : w.store.WellFormed) :
    Stays env l w (visit env enter l w).2 ∨
      ∃ t, l.target? env = some t ∧ Unvisited env w t ∧
        ∃ site, (enter t (suspended env l w site)).1 = none ∨
          ∃ r w₁, enter t (suspended env l w site) = (some r, w₁) ∧
            Resumes env l t r w w₁ (visit env enter l w).2 := by
  have hstep : LoadStep env l w (visit env enter l w).2 := loadStep_visitLoad he hw l
  cases ht : l.target? env with
  | none =>
    have hstate := @visit_unresolved env enter l w ht
    generalize (visit env enter l w).2 = w' at hstep hstate ⊢
    generalize w'.frame = frame at hstate
    subst hstate
    exact .inl (.of_recorded hstep (by simp [isCyclic, ht]) (by simp [ht]))
  | some t =>
    obtain ⟨w₁, hfetched, hstate⟩ := @visit_resolved env enter l w t ht
    generalize (visit env enter l w).2 = w' at hstep hstate ⊢
    generalize w'.frame = frame at hstate
    subst hstate
    cases hfetched with
    | memo value h =>
      have hmemo : w.loaded.get? (t, l.kind) = some value := h
      refine .inl (.of_recorded hstep (by simp [isCyclic, ht, closesCycle, hmemo]) fun t' ht' => ?_)
      cases ht.symm.trans ht'
      exact mem_keys_of_get? hmemo
    | alone h hp =>
      left
      refine .of_remembering hstep ht (by simp [closesCycle, hp]) .refl id (fun _ => rfl) (.inl ?_)
      rw [hp]
      decide
    | cycle h hp ha =>
      have hnone : w.loaded.get? (t, l.kind) = none := h
      have hactive : w.phase.isActive t = true := ha
      exact .inl (.of_cycle hstep (by simp [isCyclic, ht, closesCycle, hp, hnone, hactive]))
    | finished r h hp ha hr =>
      left
      have hactive : w.phase.isActive t = false := ha
      have hbind := within_bindModule (recorded env l w).store l.kind r
      exact .of_remembering hstep ht (by simp [closesCycle, hactive]) hbind
        (fun h => h.of_grows hbind.vars (importedVariables_bindModule _))
        (fun _ => hbind.marked_of_size_eq (size_references_bindModule _))
        (.inr (mem_keys_of_get? hr))
    | entered r w₁ w₂ h hp ha hr hent hw₂ =>
      right
      have hbind := within_bindModule w₂.store l.kind r
      refine ⟨t, rfl, ⟨hp, not_mem_active ha, not_mem_keys_iff.2 hr⟩, _, .inr ⟨r, w₁, hent, ?_⟩⟩
      subst hw₂
      exact
        { step := hstep
          store := hbind.toExtends
          imported := importedVariables_bindModule _
          occurrences := rfl
          mains := hbind.mains
          marked := hbind.marked_of_size_eq (size_references_bindModule _)
          globals := rfl
          rootGlobals := rfl
          files := rfl
          loaded := fun q hq =>
            (mem_keys_insert.1 hq).elim (fun h => .inr (by rw [h])) .inl }
    | absent w₁ h hp ha hr hent =>
      right
      exact ⟨t, rfl, ⟨hp, not_mem_active ha, not_mem_keys_iff.2 hr⟩, _,
        .inl (congrArg Prod.fst hent)⟩
    | copied a h hp ha =>
      left
      have hcopy := copiesFrom_importModule (recorded env l w).store l.kind a
      have hmem : a ∈ env.firstPass.analyses := List.mem_of_find?_eq_some ha
      exact .of_remembering hstep ht (by simp [closesCycle, hp]) hcopy.within
        (fun h => h.of_copiesFrom hmem hcopy)
        (fun hu => hcopy.marked (hu a hmem)) (.inl hp)
    | missing h hp ha =>
      left
      exact .of_remembering hstep ht (by simp [closesCycle, hp]) .refl id (fun _ => rfl) (.inl hp)

/-! ## Runs -/

structure Reads (env : WalkEnv) (f : FileId) (source : SourceFile) (chunk : Chunk)
    (w w₁ : Walk) : Prop where
  file : env.files.get? f = some source
  tree : source.source.tree = .ok chunk
  store : Store.Extends (· = nextScope w) (entering env f source chunk w).store w₁.store
  scopes : w₁.store.scopeTree (nextScope w) = chunk.scopeTree f env.config.imports
  wellFormed : w.store.WellFormed
  ends : ∃ enter : Enter, enter.Returns ∧ w₁ = atEnd env enter f source chunk w

mutual

/-- The events of the file `f` take the walk from the first state to the last, through all files
that are walked on the way, and the mentions are what it announces for `f`. -/
inductive Run (env : WalkEnv) : FileId → List Event → List Mention → Walk → Walk → Prop
  | done (f : FileId) (w : Walk) : Run env f [] [] w w
  | quiet {f : FileId} {es : List Event} {us ms : List Mention} {w w' w'' : Walk}
      (h : Moves env w w')
      (hs : Says env w us w') (rest : Run env f es ms w' w'') : Run env f es (us ++ ms) w w''
  | step {f : FileId} {e : Event} {es : List Event} {u : Mention} {ms : List Mention}
      {w w' w'' : Walk}
      (h : Step env e w w') (ha : Acts env w e u w') (rest : Run env f es ms w' w'') :
      Run env f (e :: es) (u :: ms) w w''
  | stay {f : FileId} {l : LoadCall} {es : List Event} {ms : List Mention} {w w' w'' : Walk}
      (h : Stays env l w w')
      (rest : Run env f es ms w' w'') : Run env f (.load l :: es) ms w w''
  | away {f t : FileId} {l : LoadCall} {es : List Event} {ms : List Mention} {r : FileResult}
      {site : TextRange}
      {w w₁ w' w'' : Walk} (ht : l.target? env = some t) (hnew : Unvisited env w t)
      (inner : Walks env t (suspended env l w site) r w₁) (h : Resumes env l t r w w₁ w')
      (rest : Run env f es ms w' w'') :
      Run env f (.load l :: es) ms w w''

/-- The walk of the whole file `f`, and its result. -/
inductive Walks (env : WalkEnv) : FileId → Walk → FileResult → Walk → Prop
  | broken {f : FileId} {w : Walk} {source : SourceFile} {e : SyntaxError}
      (hfile : env.files.get? f = some source)
      (htree : source.source.tree = .error e) : Walks env f w (brokenResult env f source e) w
  | read {f : FileId} {w w₁ : Walk} {source : SourceFile} {chunk : Chunk}
      (hread : Reads env f source chunk w w₁)
      (run : Run env f (chunk.trail f env.config.imports).events (chunk.mentions f)
        (entering env f source chunk w) w₁) :
      Walks env f w (treeResult f source (nextMain w) w₁) (leaving w w₁)

end

theorem Walks.file_eq {r : FileResult} (h : Walks env t w r w') : r.file = t := by
  cases h <;> rfl

theorem Walks.comesBack {r : FileResult} (h : Walks env t w r w') : ComesBack w w' := by
  cases h with
  | broken => exact .refl
  | @read _ _ _ source chunk hread run =>
    obtain ⟨enter, he, rfl⟩ := hread.ends
    have hback : ComesBack w (walkChunk env enter t source chunk w).2 :=
      comesBack_walkChunk he hread.wellFormed
    rwa [walkChunk_apply] at hback

/-- Every file that a walk of `f` might meet may still be entered. -/
def Covers (env : WalkEnv) (available : List FileId) (active : List FileId) : Prop :=
  env.pass = .project → ∀ t source, env.files.get? t = some source → t ∉ active → t ∈ available

theorem Covers.erase {active : List FileId} (h : Covers env available active) :
    Covers env (available.erase t) (t :: active) := by
  intro hp u source hu hactive
  rw [List.mem_cons, not_or] at hactive
  obtain ⟨hne, hnot⟩ := hactive
  exact (List.mem_erase_of_ne hne).2 (h hp u source hu hnot)

theorem run_of_trace {f : FileId} {es : List Event} {ms : List Mention}
    (h : Trace env (enterFrom env available) es ms w w') (hw : w.store.WellFormed)
    (hcovers : Covers env available w.phase.active)
    (hwalk : ∀ t ∈ available, ∀ v : Walk, v.store.WellFormed → v.phase.active = w.phase.active →
      (∃ source, env.files.get? t = some source) →
      ∃ r v', walkFile env (available.erase t) t v = (some r, v') ∧ Walks env t v r v') : Run env f
        es ms w w' := by
  induction h with
  | done w => exact .done f w
  | quiet hm hs _ ih =>
    have hactive := hm.quiet.active
    exact .quiet hm hs
      (ih (hm.quiet.store.wellFormed hw) (hactive.symm ▸ hcovers) fun t ht v hv ha =>
      hwalk t ht v hv (ha.trans hactive))
  | step hacts _ ih =>
    have hs := hacts.step
    have hactive := hs.active
    exact .step hs hacts (ih (hs.store.wellFormed hw) (hactive.symm ▸ hcovers) fun t ht v hv ha =>
      hwalk t ht v hv (ha.trans hactive))
  | @load l es ms w w'' _ ih =>
    have hstep : LoadStep env l w (visit env (enterFrom env available) l w).2 :=
      loadStep_visitLoad (returns_enterFrom env available) hw l
    have hrest := ih (hstep.store.wellFormed hw) (hstep.active.symm ▸ hcovers) fun t ht v hv ha =>
      hwalk t ht v hv (ha.trans hstep.active)
    rcases visit_cases (returns_enterFrom env available) hw with hstay | ⟨t, ht, hnew, site, hout⟩
    · exact .stay hstay hrest
    · -- The target is a file that is not on the stack, so it is entered.
      obtain ⟨source, hsource⟩ := target_isFile ht
      have hmem : t ∈ available := hcovers hnew.pass t source hsource hnew.inactive
      obtain ⟨r, w₁, hwalked, hwalks⟩ := hwalk t hmem (suspended env l w site)
        ((extends_suspended env l w site).wellFormed hw) rfl ⟨source, hsource⟩
      rw [enterFrom, if_pos hmem, hwalked] at hout
      obtain hnone | ⟨_, _, ⟨⟩, hres⟩ := hout
      · cases hnone
      · exact .away ht hnew hwalks hres hrest

theorem walks_walkFile {f : FileId} : ∀ w : Walk, w.store.WellFormed →
    Covers env available (f :: w.phase.active) → (∃ source, env.files.get? f = some source) →
    ∃ r w', walkFile env available f w = (some r, w') ∧ Walks env f w r w' := by
  induction available, f using walkFile.induct env with
  | case1 available f h =>
    rintro w - - ⟨source, hsource⟩
    rw [h] at hsource
    cases hsource
  | case2 available f source h e ht =>
    exact fun w _ _ _ => ⟨_, _, walkFile_of_error h ht, .broken h ht⟩
  | case3 available f source h chunk ht ih =>
    intro w hw hcovers _
    have he := returns_enterFrom env available
    have hgo := @goes_atEnd env (enterFrom env available) w he hw f source chunk
    have hscopes := @scopeTree_atEnd env (enterFrom env available) w he hw f source chunk
    have hstore := hgo.store
    rw [scope_entering] at hstore
    have hwell := (extends_entering env f source chunk w).wellFormed hw
    refine ⟨_, _, walkFile_of_ok h ht, .read ⟨h, ht, hstore, hscopes, hw, _, he, rfl⟩
      (run_of_trace hgo.trace hwell hcovers ?_)⟩
    intro t hmem v hv hactive hfile
    refine ih t hmem v hv ?_ hfile
    rw [hactive]
    exact hcovers.erase

end LuaAnalysis.WalkM
