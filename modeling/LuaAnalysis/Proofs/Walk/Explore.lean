import Mathlib.Data.List.Chain
import LuaAnalysis.Proofs.Walk.Entry

/-!
# Files that a walk explores

A walk from entry files is a depth-first search along the loads of files: the stack is a path of
loads, a file whose result is known loads files whose results are known or that are on the stack,
and a load is only remembered when its file has a result. `Explored` is this invariant, with the
main functions counted: a file has one as soon as it is entered.
-/

namespace LuaAnalysis

open List

def WalkEnv.Loads (env : WalkEnv) (f t : FileId) : Prop :=
  ∃ l, (l, some t) ∈ (env.skeleton f).references

/-- The files that a walk has entered: those with a result, and those on the stack. -/
def Walk.entered (w : Walk) : List FileId :=
  w.tables.files.keys ++ w.phase.active

def Store.mainFiles (s : Store) : List FileId :=
  s.mains.map fun main => (s.functionAt main).file

theorem Store.Extends.map_file_mains {free : ScopeId → Prop} {s s' : Store}
    (h : Store.Extends free s s') :
    (s.mains.map fun main => (s'.functionAt main).file) = s.mainFiles := by
  refine map_congr_left fun main hmain => ?_
  have hlt : main.index < s.functions.size := by
    obtain ⟨i, hi, rfl⟩ := mem_map.1 (mem_filter.1 hmain).1
    exact mem_range.1 hi
  exact part_eq (h.function_core hlt) Function.file

theorem Store.Extends.mainFiles_eq {free : ScopeId → Prop} {s s' : Store}
    (h : Store.Extends free s s') (hm : s'.mains = s.mains) : s'.mainFiles = s.mainFiles := by
  rw [mainFiles, hm, h.map_file_mains]

namespace WalkM

variable {env : WalkEnv} {R : FileId → Prop} {free : ScopeId → Prop} {f t : FileId}
  {es : List Event} {w w₁ w' : Walk}
  {chunk : Chunk} {source : SourceFile}
  {l : LoadCall} {r : FileResult}

theorem mainFiles_entering (hw : w.store.WellFormed) :
    (entering env f source chunk w).store.mainFiles = w.store.mainFiles ++ [f] := by
  have hnew := Store.functionAt_addFunction_new w.store (.main f chunk.range)
  have hfile : ((entering env f source chunk w).store.functionAt (nextMain w)).file = f :=
    congrArg Function.file hnew
  rw [Store.mainFiles, mains_entering hw, map_append, map_singleton, hfile,
    (extends_entering env f source chunk w).map_file_mains]

/-- The state of a search that only visits files in `R`. -/
structure Explored (env : WalkEnv) (R : FileId → Prop) (w : Walk) : Prop where
  nodup : w.entered.Nodup
  chain : w.phase.active.IsChain fun t f => env.Loads f t
  memo : ∀ q ∈ w.loaded.keys, q.1 ∈ w.tables.files.keys
  closed : ∀ f ∈ w.tables.files.keys, ∀ t, env.Loads f t → t ∈ w.entered
  visits : ∀ f ∈ w.entered, R f
  mains : w.store.mainFiles.Perm (w.entered.filter fun f => (env.chunk? f).isSome)

namespace Explored

theorem start {R : FileId → Prop} {pass : Pass} : Explored env R (.start pass) where
  nodup := nodup_nil
  chain := .nil
  memo _ h := nomatch h
  closed _ h := nomatch h
  visits _ h := nomatch h
  mains := by simp [Walk.start, Walk.entered, Store.mainFiles, Store.mains, OrderedMap.keys]

theorem of_perm (h : Explored env R w) (new : List FileId)
    (hperm : (w.entered ++ new).Perm w'.entered) (hnodup : (w.entered ++ new).Nodup)
    (hR : ∀ f ∈ new, R f) (hchain : w'.phase.active.IsChain fun t f => env.Loads f t)
    (hmemo : ∀ q ∈ w'.loaded.keys, q ∈ w.loaded.keys ∨ q.1 ∈ w'.tables.files.keys)
    (hkeys : w.tables.files.keys ⊆ w'.tables.files.keys)
    (hclosed : ∀ f ∈ w'.tables.files.keys, f ∈ w.tables.files.keys ∨ ∀ t, env.Loads f t →
      t ∈ w.entered)
    (hmains : w'.store.mainFiles = w.store.mainFiles ++ new.filter fun f => (env.chunk? f).isSome) :
    Explored env R w' where
  nodup := hperm.nodup_iff.1 hnodup
  chain := hchain
  memo q hq := (hmemo q hq).elim (fun hq => hkeys (h.memo q hq)) id
  closed f hf t ht := by
    refine hperm.subset (mem_append_left _ ?_)
    exact (hclosed f hf).elim (fun hf => h.closed f hf t ht) fun hloads => hloads t ht
  visits f hf := (mem_append.1 (hperm.symm.subset hf)).elim (h.visits f) (hR f)
  mains := by
    have hfilter := hperm.filter fun f => (env.chunk? f).isSome
    rw [filter_append] at hfilter
    rw [hmains]
    exact (h.mains.append_right _).trans hfilter

theorem nodup_append (h : Explored env R w) (hnew : t ∉ w.entered) : (w.entered ++ [t]).Nodup :=
  (perm_append_singleton t _).nodup_iff.2 (nodup_cons.2 ⟨hnew, h.nodup⟩)

theorem of_same (h : Explored env R w) (ha : w'.phase.active = w.phase.active)
    (hk : w'.tables.files.keys = w.tables.files.keys)
    (hl : ∀ q ∈ w'.loaded.keys, q ∈ w.loaded.keys ∨ q.1 ∈ w.tables.files.keys)
    (hm : w'.store.mainFiles = w.store.mainFiles) : Explored env R w' := by
  have hentered : w'.entered = w.entered := by rw [Walk.entered, ha, hk]; rfl
  refine h.of_perm [] ?_ ?_ nofun
    (ha ▸ h.chain) (hk ▸ hl) (hk ▸ List.Subset.refl _) (fun f hf => .inl (hk ▸ hf)) ?_
  all_goals simp [hentered, h.nodup, hm]

theorem enter (h : Explored env R w) (ha : w'.phase.active = t :: w.phase.active)
    (hk : w'.tables.files.keys = w.tables.files.keys) (hl : w'.loaded.keys = w.loaded.keys)
    (hm : w'.store.mainFiles = w.store.mainFiles ++ [t])
    (hchain : ∀ f ∈ w.phase.active.head?, env.Loads f t) (hR : R t) (hnew : t ∉ w.entered)
    (htree : (env.chunk? t).isSome) : Explored env R w' := by
  refine h.of_perm [t] ?_ (h.nodup_append hnew) (by simpa using hR) ?_ (fun q hq => .inl (hl ▸ hq))
    (hk ▸ List.Subset.refl _) (fun f hf => .inl (hk ▸ hf)) ?_
  · rw [Walk.entered, Walk.entered, ha, hk, append_assoc]
    exact (perm_append_singleton t _).append_left _
  · rw [ha, isChain_cons]
    exact ⟨hchain, h.chain⟩
  · simp [hm, htree]

theorem finish {A : List FileId} (h : Explored env R w₁) (hA : w₁.phase.active = t :: A)
    (hloads : ∀ u, env.Loads t u → u ∈ w₁.entered) (ha : w'.phase.active = A)
    (hk : w'.tables.files.keys = w₁.tables.files.keys ++ [t])
    (hl : ∀ q ∈ w'.loaded.keys, q ∈ w₁.loaded.keys ∨ q.1 = t)
    (hm : w'.store.mainFiles = w₁.store.mainFiles) : Explored env R w' := by
  have hentered : w'.entered = w₁.entered := by simp [Walk.entered, ha, hk, hA]
  refine h.of_perm [] ?_ ?_ nofun ?_ ?_ ?_ ?_ ?_
  rotate_left 2
  · exact ha ▸ (isChain_cons.1 (hA ▸ h.chain)).2
  · exact fun q hq => (hl q hq).imp_right fun hq => by simp [hk, hq]
  · simp [hk]
  · rw [hk]
    simp only [mem_append, mem_singleton]
    rintro f (hf | rfl)
    · exact .inl hf
    · exact .inr hloads
  all_goals simp [hentered, h.nodup, hm]

theorem finishBroken (h : Explored env R w) (ha : w'.phase.active = w.phase.active)
    (hk : w'.tables.files.keys = w.tables.files.keys ++ [t])
    (hl : ∀ q ∈ w'.loaded.keys, q ∈ w.loaded.keys ∨ q.1 = t)
    (hm : w'.store.mainFiles = w.store.mainFiles) (hR : R t) (hnew : t ∉ w.entered)
    (htree : env.chunk? t = none) : Explored env R w' := by
  refine h.of_perm [t] ?_ (h.nodup_append hnew) (by simpa using hR) (ha ▸ h.chain) ?_ ?_ ?_ ?_
  · rw [Walk.entered, Walk.entered, ha, hk, append_assoc, append_assoc]
    exact perm_append_comm.append_left _
  · exact fun q hq => (hl q hq).imp_right fun hq => by simp [hk, hq]
  · simp [hk]
  · rw [hk]
    simp only [mem_append, mem_singleton]
    rintro f (hf | rfl)
    · exact .inl hf
    · refine .inr fun u ⟨l, hl⟩ => ?_
      rw [WalkEnv.skeleton, htree] at hl
      cases hl
  · simp [hm, htree]

end Explored

/-! ## Runs -/

def Belongs (env : WalkEnv) (f : FileId) (es : List Event) : Prop :=
  ∀ l ∈ es.filterMap Event.load?, l.link env ∈ (env.skeleton f).references

theorem Belongs.tail {e : Event} (h : Belongs env f (e :: es)) : Belongs env f es := by
  intro l hl
  refine h l ?_
  rw [filterMap_cons]
  split
  · exact hl
  · exact mem_cons_of_mem _ hl

theorem Belongs.loads (h : Belongs env f (.load l :: es)) (ht : l.target? env = some t) :
    env.Loads f t := by
  have hl : l.link env ∈ (env.skeleton f).references := h l (by simp [Event.load?])
  rw [LoadCall.link, ht] at hl
  exact ⟨l, hl⟩

theorem loads_iff_of_ok (hfile : env.files.get? f = some source)
    (htree : source.source.tree = .ok chunk) :
    env.Loads f t ↔ ∃ l ∈ (chunk.trail f env.config.imports).events.filterMap Event.load?,
      l.target? env = some t := by
  rw [WalkEnv.Loads, WalkEnv.skeleton_of_ok hfile htree]
  constructor
  · rintro ⟨l, hl⟩
    obtain ⟨l', hl', heq⟩ := mem_map.1 hl
    exact ⟨l', hl', congrArg Prod.snd heq⟩
  · rintro ⟨l, hl, ht⟩
    refine ⟨l, mem_map.2 ⟨l, hl, ?_⟩⟩
    rw [LoadCall.link, ht]

theorem belongs_of_ok (hfile : env.files.get? f = some source)
    (htree : source.source.tree = .ok chunk) :
    Belongs env f (chunk.trail f env.config.imports).events := by
  intro l hl
  rw [WalkEnv.skeleton_of_ok hfile htree]
  exact mem_map_of_mem hl

/-- A walk from entry files among files in `R`, which no load leaves. -/
structure Searching (env : WalkEnv) (R : FileId → Prop) (w : Walk) : Prop
    extends Explored env R w where
  pass : env.pass = .project
  reach : ∀ g u, R g → env.Loads g u → R u
  wellFormed : w.store.WellFormed

/-- It is in the file `f`, with the events `es` still to come. -/
structure Search (env : WalkEnv) (R : FileId → Prop) (f : FileId) (es : List Event)
    (w : Walk) : Prop
    extends Searching env R w where
  head : w.phase.active.head? = some f
  belongs : Belongs env f es

/-- It is about to enter the file `t`. -/
structure Approach (env : WalkEnv) (R : FileId → Prop) (t : FileId) (w : Walk) : Prop
    extends Searching env R w where
  loaded : ∀ f ∈ w.phase.active.head?, env.Loads f t
  reached : R t
  fresh : t ∉ w.entered

theorem active_of_isCyclic (h : isCyclic env w l = true) (ht : l.target? env = some t) :
    t ∈ w.phase.active := by
  simp only [isCyclic, ht, Option.any_some, closesCycle, PhaseTracker.isActive,
    Bool.and_eq_true] at h
  exact contains_iff_mem.1 h.2

namespace Search

theorem next {es' : List Event} (h : Search env R f es w) (hx : Explored env R w')
    (hs : Store.Extends free w.store w'.store) (ha : w'.phase.active = w.phase.active)
    (hes : Belongs env f es') : Search env R f es' w' :=
  ⟨⟨hx, h.pass, h.reach, hs.wellFormed h.wellFormed⟩, ha ▸ h.head, hes⟩

theorem quiet (h : Search env R f es w) (hm : Moves env w w') : Search env R f es w' := by
  have hq := hm.quiet
  refine h.next (h.of_same hq.active (by rw [hq.files]) (fun _ h => .inl (hq.loaded ▸ h)) ?_)
    hq.store.toExtends hq.active
    h.belongs
  exact hq.store.toExtends.mainFiles_eq hq.store.mains

theorem step {e : Event} (h : Search env R f (e :: es) w) (hs : Step env e w w') :
    Search env R f es w' := by
  refine h.next (h.of_same hs.active (by rw [hs.files]) (fun _ h => .inl (hs.loaded ▸ h)) ?_)
    hs.store.toExtends hs.active
    h.belongs.tail
  exact hs.store.toExtends.mainFiles_eq hs.store.mains

theorem stay (h : Search env R f (.load l :: es) w) (hs : Stays env l w w') :
    Search env R f es w' := by
  refine h.next (h.of_same hs.step.active (by rw [hs.tables]) (fun q hq => ?_) ?_) hs.step.store
    hs.step.active
    h.belongs.tail
  · exact (hs.loaded q hq).imp_right fun hq => hq.resolve_left fun hne => hne h.pass
  · exact hs.step.store.mainFiles_eq hs.mains

theorem known (h : Search env R f es w) (hs : Stays env l w w') (ht : l.target? env = some t) :
    isCyclic env w l = true ∨ t ∈ w.tables.files.keys := by
  rcases hs.known h.pass t ht with hc | hmemo | hkey
  · exact .inl hc
  · exact .inr (h.memo _ hmemo)
  · exact .inr hkey

theorem approach (h : Search env R f (.load l :: es) w) (ht : l.target? env = some t)
    (hnew : Unvisited env w t) (site : TextRange) : Approach env R t (suspended env l w site) := by
  have hsus := extends_suspended env l w site
  refine ⟨⟨h.of_same rfl rfl (fun _ => .inl) (hsus.toExtends.mainFiles_eq hsus.mains),
    h.pass, h.reach, hsus.wellFormed h.wellFormed⟩, fun g hg => ?_, ?_,
    not_mem_append hnew.fresh hnew.inactive⟩
  · cases h.head.symm.trans hg
    exact h.belongs.loads ht
  · exact h.reach f t (h.visits f (mem_append_right _ (mem_of_mem_head? h.head)))
      (h.belongs.loads ht)

end Search

theorem Approach.search (h : Approach env R t w) (hread : Reads env t source chunk w w₁) :
    Search env R t (chunk.trail t env.config.imports).events (entering env t source chunk w) := by
  refine ⟨⟨h.enter rfl rfl rfl (mainFiles_entering h.wellFormed) h.loaded h.reached h.fresh ?_,
    h.pass, h.reach, (extends_entering env t source chunk w).wellFormed h.wellFormed⟩, rfl,
    belongs_of_ok hread.file hread.tree⟩
  rw [WalkEnv.chunk?_of_ok hread.file hread.tree]
  rfl

/-- A run explores what its loads reach. -/
structure Explores (env : WalkEnv) (R : FileId → Prop) (es : List Event) (w w' : Walk) : Prop where
  explored : Explored env R w'
  keys : w.tables.files.keys <+: w'.tables.files.keys
  active : w'.phase.active = w.phase.active
  loads : ∀ l ∈ es.filterMap Event.load?, ∀ t, l.target? env = some t → t ∈ w'.entered

theorem Explores.load (h : Explores env R es w₁ w')
    (hk : w.tables.files.keys <+: w₁.tables.files.keys) (ha : w₁.phase.active = w.phase.active)
    (ht : ∀ t, l.target? env = some t → t ∈ w₁.entered) : Explores env R (.load l :: es) w w' where
  explored := h.explored
  keys := hk.trans h.keys
  active := h.active.trans ha
  loads := by
    have hload : (Event.load l :: es).filterMap Event.load? = l :: es.filterMap Event.load? := rfl
    rw [hload]
    rintro l' (_ | ⟨_, hl'⟩) t htarget
    · rw [Walk.entered, h.active]
      exact (h.keys.sublist.append_right _).subset (ht t htarget)
    · exact h.loads l' hl' t htarget

/-- A file whose walk has ended is among the results, behind those that came meanwhile. -/
structure Finished (env : WalkEnv) (R : FileId → Prop) (t : FileId) (w w₁ w' : Walk) : Prop where
  explored : Explored env R w'
  before : w.tables.files.keys <+: w₁.tables.files.keys
  fresh : t ∉ w₁.tables.files.keys
  keys : w'.tables.files.keys = w₁.tables.files.keys ++ [t]

theorem Finished.subset (h : Finished env R t w w₁ w') :
    w.tables.files.keys <+: w'.tables.files.keys :=
  h.keys ▸ h.before.trans (prefix_append _ _)

theorem Finished.mem (h : Finished env R t w w₁ w') : t ∈ w'.tables.files.keys :=
  h.keys ▸ mem_append_right _ mem_cons_self

mutual

theorem Run.explores {f : FileId} {es : List Event} {ms : List Mention} {w w' : Walk}
    (h : Run env f es ms w w') (hx : Search env R f es w) : Explores env R es w w' := by
  match h with
  | .done _ _ => exact ⟨hx.toExplored, prefix_rfl, rfl, by simp⟩
  | .quiet hm _ rest =>
    have hrest := rest.explores (hx.quiet hm)
    exact { hrest with
      keys := hm.quiet.files ▸ hrest.keys, active := hrest.active.trans hm.quiet.active }
  | .step hs _ rest =>
    have hrest := rest.explores (hx.step hs)
    refine
      { explored := hrest.explored
        keys := hs.files ▸ hrest.keys
        active := hrest.active.trans hs.active
        loads := ?_ }
    rw [filterMap_cons_none hs.isName]
    exact hrest.loads
  | .stay hs rest =>
    refine (rest.explores (hx.stay hs)).load (hs.tables ▸ prefix_rfl) hs.step.active fun t ht => ?_
    rw [Walk.entered, hs.tables, hs.step.active]
    rcases hx.known hs ht with hc | hkey
    · exact mem_append_right _ (active_of_isCyclic hc ht)
    · exact mem_append_left _ hkey
  | .away ht hnew inner hr rest =>
    -- The other file is explored to its end, on top of the same stack, and only then among the
    -- results.
    have hdone := inner.explores (hx.approach ht hnew _) hr.toEnlists hr.step.active
    have hrest := rest.explores
      (hx.next hdone.explored hr.step.store hr.step.active hx.belongs.tail)
    refine hrest.load hdone.subset hr.step.active fun u hu => mem_append_left _ ?_
    cases ht.symm.trans hu
    exact hdone.mem

theorem Walks.explores {t : FileId} {r : FileResult} {w w₁ w' : Walk} (h : Walks env t w r w₁)
    (hx : Approach env R t w) (hlist : Enlists t r w₁ w') (ha : w'.phase.active = w.phase.active) :
    Finished env R t w w₁ w' := by
  have hmains := hlist.store.mainFiles_eq hlist.mains
  match h with
  | .broken hfile htree =>
    have hfresh : t ∉ w.tables.files.keys := mt (mem_append_left _) hx.fresh
    refine ⟨hx.finishBroken ha (hlist.keys hfresh) hlist.loaded hmains hx.reached hx.fresh ?_,
      prefix_rfl, hfresh, hlist.keys hfresh⟩
    exact WalkEnv.chunk?_of_error hfile htree
  | @Walks.read _ _ _ w₁ _ _ hread run =>
    have hrun := run.explores (hx.search hread)
    have hA : w₁.phase.active = t :: w.phase.active := hrun.active
    have hfresh : t ∉ w₁.tables.files.keys := fun hmem =>
      (nodup_append.1 hrun.explored.nodup).2.2 t hmem t (hA ▸ mem_cons_self) rfl
    refine ⟨hrun.explored.finish hA (fun u hu => ?_) ha (hlist.keys hfresh) hlist.loaded hmains,
      hrun.keys, hfresh, hlist.keys hfresh⟩
    obtain ⟨l, hl, ht⟩ := (loads_iff_of_ok hread.file hread.tree).1 hu
    exact hrun.loads l hl u ht

end

/-! ## Entry files -/

namespace Explored

theorem approach (h : Explored env R w) (hidle : Idle env w) (hp : env.pass = .project)
    (hR : ∀ g u, R g → env.Loads g u → R u) (hRf : R f) (hnew : f ∉ w.tables.files.keys) :
    Approach env R f w :=
  ⟨⟨h, hp, hR, hidle.wellFormed⟩, by simp [hidle.active],
    hRf, by simpa [Walk.entered, hidle.active] using hnew⟩

theorem of_visits (h : Explored env R w) (hidle : Idle env w) (hp : env.pass = .project)
    (hR : ∀ g u, R g → env.Loads g u → R u) (hRf : R f) (hv : Visits env f w w') :
    Explored env R w' ∧ w.tables.files.keys <+: w'.tables.files.keys ∧
    f ∈ w'.tables.files.keys := by
  cases hv with
  | again hmem => exact ⟨h, prefix_rfl, hmem⟩
  | first hnew hwalks =>
    have hdone := hwalks.explores (h.approach hidle hp hR hRf hnew)
      (enlists_walked ..) hwalks.comesBack.active
    exact ⟨hdone.explored, hdone.subset, hdone.mem⟩

theorem forM_walkEntry (h : Explored env R w) (hidle : Idle env w) (hp : env.pass = .project)
    (hR : ∀ g u, R g → env.Loads g u → R u) {entries : List FileId}
    (hentries : ∀ f ∈ entries, f ∈ env.files.ids ∧ R f) :
    Explored env R (entries.forM (walkEntry env) w).2 ∧
      w.tables.files.keys <+: (entries.forM (walkEntry env) w).2.tables.files.keys ∧
      ∀ f ∈ entries, f ∈ (entries.forM (walkEntry env) w).2.tables.files.keys := by
  induction entries generalizing w with
  | nil => exact ⟨h, prefix_rfl, fun _ h => nomatch h⟩
  | cons f entries ih =>
    obtain ⟨hmem, hRf⟩ := hentries f mem_cons_self
    obtain ⟨hx, hkeys, hin⟩ := h.of_visits hidle hp hR hRf (hidle.visits hp hmem)
    obtain ⟨hx', hkeys', hin'⟩ :=
      ih hx (hidle.walkEntry hp f) fun g hg => hentries g (mem_cons_of_mem f hg)
    refine ⟨hx', hkeys.trans hkeys', fun g hg => ?_⟩
    rcases mem_cons.1 hg with rfl | hg
    · exact hkeys'.subset hin
    · exact hin' g hg

end Explored

end WalkM

end LuaAnalysis
