import LuaAnalysis.Proofs.Walk.Entry
import LuaAnalysis.Proofs.Walk.Pairing

/-!
# Walks that refuse files

A guarded walk refuses to enter a file that is on the stack, one that has been walked, and one that
is not on the list of files that may still be entered; what it does instead is up to `refuse`. It
does the same as the plain walk whatever `refuse` is: no walk ever comes to a file that would be
refused.
-/

namespace LuaAnalysis.WalkM

/-- A walk that asks `refuse` for every file that is active, listed or no longer available. -/
def walkGuarded (env : WalkEnv) (refuse : Enter) (available : List FileId) (file : FileId) :
    WalkM (Option FileResult) :=
  match env.files.get? file with
  | none => return none
  | some source =>
    match source.source.tree with
    | .error e => return some (brokenResult env file source e)
    | .ok chunk =>
      let enter (target : FileId) : WalkM (Option FileResult) := do
        let w ← get
        if (target :: w.phase.active).Nodup ∧ target ∉ w.tables.files.keys then
          if target ∈ available then walkGuarded env refuse (available.erase target) target
          else refuse target
        else refuse target
      some <$> walkChunk env enter file source chunk
termination_by available.length
decreasing_by
  have := List.length_erase_of_mem ‹target ∈ available›
  have := List.length_pos_of_mem ‹target ∈ available›
  omega

/-- How a load enters its target in such a walk. -/
def enterGuarded (env : WalkEnv) (refuse : Enter) (available : List FileId) : Enter :=
  fun target => do
  let w ← get
  if (target :: w.phase.active).Nodup ∧ target ∉ w.tables.files.keys then
    if target ∈ available then walkGuarded env refuse (available.erase target) target
    else refuse target
  else refuse target

/-- A file at the top of such a run. -/
def walkEntryGuarded (env : WalkEnv) (refuse : Enter) (file : FileId) : WalkM Unit := do
  if (← get).tables.isWalked file then return
  match ← enterGuarded env refuse env.files.ids file with
  | some result => changeTables env fun t => { t with files := t.files.insert file result }
  | none => return

variable {env : WalkEnv} {enter enter' refuse : Enter} {available stack : List FileId}
  {f t : FileId} {w : Walk}
  {source : SourceFile}

theorem enterGuarded_of_mem (hnodup : (t :: w.phase.active).Nodup)
    (hfresh : t ∉ w.tables.files.keys) (hmem : t ∈ available) :
    enterGuarded env refuse available t w = walkGuarded env refuse (available.erase t) t w := by
  rw [enterGuarded, bind_apply, get_apply]
  dsimp only
  rw [if_pos ⟨hnodup, hfresh⟩, if_pos hmem]

theorem walkGuarded_of_none (h : env.files.get? f = none) :
    walkGuarded env refuse available f w = (none, w) := by
  rw [walkGuarded, h]
  rfl

theorem walkGuarded_of_error {e : SyntaxError} (h : env.files.get? f = some source)
    (ht : source.source.tree = .error e) :
    walkGuarded env refuse available f w = (some (brokenResult env f source e), w) := by
  rw [walkGuarded, h]
  dsimp only
  rw [ht]
  rfl

theorem walkGuarded_of_ok {chunk : Chunk} (h : env.files.get? f = some source)
    (ht : source.source.tree = .ok chunk) : walkGuarded env refuse available f w =
      (some (treeResult f source
        (nextMain w) (atEnd env (enterGuarded env refuse available) f source chunk w)),
        leaving w (atEnd env (enterGuarded env refuse available) f source chunk w)) := by
  have hwalk : walkGuarded env refuse available f =
      some <$> walkChunk env (enterGuarded env refuse available) f source chunk := by
    rw [walkGuarded, h]
    dsimp only
    rw [ht]
    rfl
  rw [hwalk, map_apply, walkChunk_apply]

/-! ## Loads ask for files that are neither on the stack nor walked -/

/-- Two ways to enter files agree on a load if they agree on files not visited yet. -/
theorem moduleValue_congr {reference : ReferenceId} {load : LoadKind}
    (h : ∀ site, env.pass = .project → w.phase.isActive t = false → w.tables.files.get? t = none →
      enter' t (waiting w site) = enter t (waiting w site)) :
    moduleValue env enter' reference t load w = moduleValue env enter reference t load w := by
  rw [moduleValue, moduleValue, bind_apply, bind_apply, get_apply]
  cases w.loaded.get? (t, load) with
  | some value => rfl
  | none =>
    cases hp : env.pass with
    | project =>
      dsimp only
      by_cases ha : w.phase.isActive t = true
      · rw [if_pos ha, if_pos ha]
      · rw [if_neg ha, if_neg ha]
        simp only [bind_apply, resultOf, get_apply]
        cases hr : w.tables.files.get? t with
        | some r => rfl
        | none => simp only [bind_apply, withLoadSite_apply, h _ hp (Bool.eq_false_iff.2 ha) hr]
    | _ => rfl

theorem visit_congr {l : LoadCall} (h : ∀ t site, l.target? env = some t → Unvisited env w t →
      enter' t (suspended env l w site) = enter t (suspended env l w site)) :
    visit env enter' l w = visit env enter l w := by
  rw [visit, visit, visitLoad_apply, visitLoad_apply]
  cases ht : l.target? env with
  | none => rfl
  | some t =>
    have hvalue : moduleValue env enter' (nextReference w) t l.kind (recorded env l w) =
        moduleValue env enter (nextReference w) t l.kind (recorded env l w) := by
      refine moduleValue_congr fun site hp ha hr => ?_
      exact h t site ht ⟨hp, not_mem_active (w := w) ha, OrderedMap.not_mem_keys_iff.2 hr⟩
    simp only [bind_apply, hvalue]

/-! ## Two walks in one state -/

/-- The walk is in the same file, and what was settled about variables still is. -/
structure Lasts (w w' : Walk) : Prop where
  active : w'.phase.active = w.phase.active
  settles : w.store.Settles w'.store

theorem Lasts.of_eq {w w' : Walk} (hactive : w'.phase.active = w.phase.active)
    (hvars : w'.store.vars = w.store.vars) : Lasts w w' :=
  ⟨hactive, .of_vars hvars⟩

theorem Lasts.trans {w w' w'' : Walk} (h : Lasts w w') (h' : Lasts w' w'') : Lasts w w'' :=
  ⟨h'.active.trans h.active, h.settles.trans h'.settles⟩

/-- Both walks are in the same state, one that has come from `start`. -/
def InOneState (start w w' : Walk) : Prop :=
  w' = w ∧ Lasts start w

section

variable {start : Walk} {m m' : WalkM α}

theorem agrees_of_stays (h : ∀ w, Lasts start w → m' w = m w ∧ Lasts w (m w).2) :
    Agrees (InOneState start) m m' := by
  rintro _ w ⟨rfl, hstart⟩
  obtain ⟨heq, hlasts⟩ := h w hstart
  rw [heq]
  exact ⟨rfl, rfl, hstart.trans hlasts⟩

theorem agrees_self (h : ∀ w, Lasts w (m w).2) : Keeps (InOneState start) m :=
  agrees_of_stays fun w _ => ⟨rfl, h w⟩

end

theorem lasts_importFrom {found : FileAnalysis × VariableId} : Lasts w (importFrom found w).2 :=
  ⟨rfl, .importVariable⟩

theorem lasts_fetch {p : Provider} : Lasts w (fetch p w).2 := by
  cases p with
  | table id => exact .of_eq rfl rfl
  | file found => exact lasts_importFrom

theorem lasts_fetch? {p? : Option Provider} : Lasts w (fetch? p? w).2 := by
  cases p? with
  | none => exact .of_eq rfl rfl
  | some p => exact lasts_fetch

theorem lasts_lookup (name : String) : Lasts w (lookup env name w).2 := by
  have hlooks := looks_lookup env w name
  generalize lookup env name w = out at hlooks ⊢
  cases hlooks with
  | bound => exact .of_eq rfl rfl
  | seen => exact lasts_fetch
  | unseen _ _ hmiss =>
    cases hmiss with
    | builtin | lost => exact .of_eq rfl rfl
    | waits => exact lasts_importFrom

theorem lasts_changeTables {g : ProjectTables → ProjectTables} :
    Lasts w (changeTables env g w).2 := by
  rw [changeTables_apply]
  exact .of_eq rfl rfl

theorem pairing_inOneState {start : Walk} : Pairing id (InOneState start) where
  store h := h.1 ▸ Store.twin_id
  frame h := h.1 ▸ rfl
  globals h := h.1 ▸ rfl
  changeStore _ hsettles := agrees_self fun _ => ⟨rfl, hsettles _⟩
  addScope := agrees_self fun _ => .of_eq rfl (Store.vars_addScope ..)
  addVariable v := agrees_self fun _ => ⟨rfl, .addVariable v⟩
  addFunction _ := agrees_self fun _ => .of_eq rfl (Store.vars_addFunction ..)
  accept _ := agrees_self fun _ => .of_eq rfl rfl
  changeFrame _ := agrees_self fun _ => .of_eq rfl rfl
  notify := agrees_self fun _ => .of_eq rfl rfl
  notifyUnbound := agrees_self fun _ => .of_eq rfl rfl
  checkMember {module key range} := agrees_self fun w => by
    obtain ⟨ds, hds, -⟩ := @reports_checkMember range key module w
    rw [hds]
    exact .of_eq rfl rfl

theorem paired_inOneState {start : Walk} (h : ∀ l w, Lasts start w →
    visit env enter' l w = visit env enter l w ∧ Lasts w (visit env enter l w).2) :
    Paired id (InOneState start) env env enter enter' where
  toPairing := pairing_inOneState
  lookup name := agrees_self fun _ => lasts_lookup name
  knownGlobal? name := agrees_self fun w => knownGlobal?_apply env name w default ▸ lasts_fetch?
  knownRootGlobal? name :=
    agrees_self fun w => knownRootGlobal?_apply env name w default ▸ lasts_fetch?
  shareGlobal := agrees_self fun _ => lasts_changeTables
  shareRootGlobal := agrees_self fun _ => lasts_changeTables
  loadOf? _ _ h := h.1 ▸ rfl
  visitLoad {load module range} := agrees_of_stays (h ⟨load, module, range⟩)

theorem lasts_moduleValue (he : ∀ target w, Lasts w (enter target w).2) {reference : ReferenceId}
    {load : LoadKind} : Lasts w (moduleValue env enter reference t load w).2 := by
  have hfetched := @fetched_moduleValue env enter reference t load w
  generalize (moduleValue env enter reference t load w).2 = w' at hfetched ⊢
  cases hfetched with
  | entered r w₁ w₂ _ _ _ _ hr hw₂ =>
    subst hw₂
    have hback := he t (waiting w (w.store.referenceAt reference).range)
    rw [hr] at hback
    exact ⟨hback.active, hback.settles.trans .bindModule⟩
  | absent w₁ _ _ _ _ hr =>
    have hback := he t (waiting w (w.store.referenceAt reference).range)
    rw [hr] at hback
    exact ⟨hback.active, hback.settles⟩
  | finished => exact ⟨rfl, .bindModule⟩
  | copied => exact ⟨rfl, .importModule⟩
  | _ => exact .of_eq rfl rfl

theorem lasts_visit (he : ∀ target w, Lasts w (enter target w).2) {l : LoadCall} :
    Lasts w (visit env enter l w).2 := by
  have hinfo : ∀ value w', Lasts w' (loadedInfo l.kind (nextReference w) value w').2 := by
    intro value w'
    cases value <;> exact .of_eq rfl rfl
  have hrecorded : Lasts w (recorded env l w) := .of_eq rfl rfl
  rw [visit, visitLoad_apply]
  cases l.target? env with
  | none =>
    dsimp only
    split
    · exact .of_eq rfl rfl
    · exact .of_eq rfl rfl
  | some target =>
    have hvalue : Lasts w
      (moduleValue env enter (nextReference w) target l.kind (recorded env l w)).2 :=
      hrecorded.trans (lasts_moduleValue he)
    dsimp only
    rw [bind_apply, bind_apply, ask_apply]
    split
    · rw [bind_apply]
      refine (hvalue.trans ?_).trans (hinfo _ _)
      exact .of_eq rfl rfl
    · exact hvalue.trans (hinfo _ _)

theorem lasts_walkFile : ∀ w, Lasts w (walkFile env available f w).2 := by
  induction available, f using walkFile.induct env with
  | case1 available f h =>
    intro w
    rw [walkFile_of_none h]
    exact .of_eq rfl rfl
  | case2 available f source h e ht =>
    intro w
    rw [walkFile_of_error h ht]
    exact .of_eq rfl rfl
  | case3 available f source h chunk ht ih =>
    intro w
    have he : ∀ target w, Lasts w (enterFrom env available target w).2 := by
      intro target w
      rw [enterFrom]
      split
      · exact ih target ‹_› w
      · exact .of_eq rfl rfl
    have hpaired : Paired id (InOneState (entering env f source chunk w)) env env _ _ :=
      paired_inOneState fun l w _ => ⟨rfl, lasts_visit he⟩
    have htree : Agrees _ (walkTree _ _ chunk (nextMain w)) _ := hpaired.walkTree
    have hend : InOneState _ (atEnd env (enterFrom env available) f source chunk w) _ :=
      (htree (entering env f source chunk w) _ ⟨rfl, .of_eq rfl rfl⟩).2
    have hstart : w.store.Settles (entering env f source chunk w).store :=
      .of_vars (Store.vars_addFunction ..)
    rw [walkFile_of_ok h ht]
    generalize atEnd env (enterFrom env available) f source chunk w = w₁ at hend
    exact ⟨congrArg List.tail hend.2.active, hstart.trans hend.2.settles⟩

theorem lasts_enterFrom (target : FileId) (w : Walk) :
    Lasts w (enterFrom env available target w).2 := by
  rw [enterFrom]
  split
  · exact lasts_walkFile w
  · exact .of_eq rfl rfl

/-! ## The guard stays open -/

/-- No load ever asks for a refused file, so the guard makes no difference. -/
theorem walkGuarded_eq : ∀ w : Walk, Covers env available (f :: w.phase.active) →
    (f :: w.phase.active).Nodup →
    walkGuarded env refuse available f w = walkFile env available f w := by
  induction available, f using walkFile.induct env with
  | case1 available f h =>
    intro w _ _
    rw [walkGuarded_of_none h, walkFile_of_none h]
  | case2 available f source h e ht =>
    intro w _ _
    rw [walkGuarded_of_error h ht, walkFile_of_error h ht]
  | case3 available f source h chunk ht ih =>
    intro w hcovers hnodup
    have hpaired :
      Paired id (InOneState (entering env f source chunk w)) env env (enterFrom env available)
        (enterGuarded env refuse available) := by
      refine paired_inOneState fun l v hlasts => ⟨?_, lasts_visit lasts_enterFrom⟩
      have hstack : v.phase.active = f :: w.phase.active := hlasts.active
      -- The guard lets every file pass for which a load asks.
      refine visit_congr fun t site htarget hnew => ?_
      obtain ⟨source', hsource'⟩ := target_isFile htarget
      have hinactive := hnew.inactive
      rw [hstack] at hinactive
      have hmem : t ∈ available := hcovers hnew.pass t source' hsource' hinactive
      have hnodup' : (t :: (suspended env l v site).phase.active).Nodup := by
        change (t :: v.phase.active).Nodup
        rw [hstack]
        exact List.nodup_cons.2 ⟨hinactive, hnodup⟩
      rw [enterGuarded_of_mem hnodup' hnew.fresh hmem, enterFrom, if_pos hmem]
      refine ih t hmem _ ?_ hnodup'
      change Covers env (available.erase t) (t :: v.phase.active)
      rw [hstack]
      exact hcovers.erase
    have htree : Agrees _ (walkTree _ _ chunk (nextMain w)) _ := hpaired.walkTree
    have hend : atEnd env (enterGuarded env refuse available) f source chunk w =
        atEnd env (enterFrom env available) f source chunk w :=
        (htree (entering env f source chunk w) _ ⟨rfl, .of_eq rfl rfl⟩).2.1
    rw [walkGuarded_of_ok h ht, walkFile_of_ok h ht, hend]

theorem Idle.walkEntryGuarded_eq (h : Idle env w) (hf : f ∈ env.files.ids) :
    walkEntryGuarded env refuse f w = WalkM.walkEntry env f w := by
  rw [walkEntryGuarded, WalkM.walkEntry, bind_apply, bind_apply, get_apply]
  dsimp only
  by_cases hwalked : w.tables.isWalked f = true
  · rw [if_pos hwalked, if_pos hwalked]
  · have hfresh : f ∉ w.tables.files.keys := mt OrderedMap.contains_iff.2 hwalked
    have hnodup : (f :: w.phase.active).Nodup := by simp [h.active]
    have halone : enterGuarded env refuse env.files.ids f w = WalkM.walkAlone env f w := by
      rw [enterGuarded_of_mem hnodup hfresh hf, WalkM.walkAlone]
      refine walkGuarded_eq w ?_ hnodup
      rw [h.active]
      exact covers_ids
    rewrite [if_neg hwalked, if_neg hwalked, bind_apply, bind_apply, halone]
    rfl

theorem Idle.forM_walkEntryGuarded_eq (h : Idle env w) (hp : env.pass = .project) (refuse : Enter)
    (entries : List FileId) (hentries : ∀ f ∈ entries, f ∈ env.files.ids) :
    entries.forM (walkEntryGuarded env refuse) w = entries.forM (WalkM.walkEntry env) w := by
  induction entries generalizing w with
  | nil => rfl
  | cons f entries ih =>
    have hf := hentries f List.mem_cons_self
    rw [forM_cons_apply, forM_cons_apply, h.walkEntryGuarded_eq hf]
    exact ih (h.walkEntry hp f) fun g hg => hentries g (List.mem_cons_of_mem f hg)

end LuaAnalysis.WalkM
