import LuaAnalysis.Proofs.Project.History
import LuaAnalysis.Proofs.Walk.Explore
import LuaAnalysis.Proofs.Walk.Guard

/-!
# The files that a check reaches

A check from entry files reaches the files that loads lead to, and no others; it walks each of them
once. Which loads there are is what the first pass has recorded, and does not depend on the way in
which a check comes to a file.
-/

namespace LuaAnalysis.Project

open WalkM

def Loads (p : Project) (f t : FileId) : Prop :=
  ∃ a, p.computeFirstPass.get? f = some a ∧
    ∃ id ∈ a.result.references, (a.store.referenceAt id).target = some t

/-- Loads lead from some entry to the file. -/
inductive Reached (p : Project) (entries : List FileId) : FileId → Prop
  | entry {f : FileId} (h : f ∈ entries) : Reached p entries f
  | load {f t : FileId} (h : Reached p entries f) (hload : p.Loads f t) : Reached p entries t

def hasTree (p : Project) (f : FileId) : Bool :=
  ((p.env .fileLocal {}).chunk? f).isSome

/-- A walk from some files that leaves it to `refuse` what happens at a load of a file that is on
the stack or has been walked. -/
def guardedFrom (p : Project) (refuse : Enter) (firstPass : FirstPass) (entries : List FileId) :
    ProjectResult :=
  let (_, w) := (entries.forM (walkEntryGuarded (p.env .project firstPass) refuse)).run
    (.start .project)
  { store := w.store, entries, tables := w.tables }

variable {p : Project} {f t : FileId}
variable {firstPass : FirstPass} {entries : List FileId}

theorem loads_iff (p : Project) (firstPass : FirstPass) :
    p.Loads f t ↔ (p.env .project firstPass).Loads f t := by
  have hskeleton : (p.env .project firstPass).skeleton f = p.skeleton f := rfl
  unfold Loads WalkEnv.Loads
  rw [get?_computeFirstPass, hskeleton]
  by_cases hf : f ∈ p.files.ids
  · obtain ⟨a, ha⟩ := p.exists_analyse? hf
    rw [← (Walked.fileLocal ha).skeleton_eq hf, a.result.mem_references_skeleton_iff, ha]
    simp
  · rw [analyse?_of_not_mem hf]
    constructor
    · rintro ⟨_, ⟨⟩, -⟩
    · rintro ⟨l, hl⟩
      rw [skeleton, WalkEnv.skeleton_of_not_mem hf] at hl
      cases hl

theorem loads_of_mem {l} (h : (l, some t) ∈ (p.skeleton f).references) : p.Loads f t :=
  (p.loads_iff {}).2 ⟨l, h⟩

theorem Reached.of_loads (f t : FileId) (hf : p.Reached entries f)
    (hload : (p.env .project firstPass).Loads f t) : p.Reached entries t :=
  .load hf ((p.loads_iff firstPass).2 hload)

theorem explored_walkFrom (firstPass : FirstPass) (h : ∀ f ∈ entries, f ∈ p.files.ids) :
    Explored (p.env .project firstPass) (p.Reached entries)
        (entries.forM (walkEntry (p.env .project firstPass)) (.start .project)).2 ∧
      ∀ f ∈ entries, f ∈ (p.walkFrom firstPass entries).tables.files.keys := by
  obtain ⟨hx, -, hin⟩ := Explored.start.forM_walkEntry
    (idle_start (p.env .project firstPass) .project) rfl Reached.of_loads fun f hf =>
    ⟨h f hf, .entry hf⟩
  exact ⟨hx, hin⟩

theorem entered_walkFrom (p : Project) (firstPass : FirstPass) (entries : List FileId) :
    (entries.forM (walkEntry (p.env .project firstPass)) (.start .project)).2.entered =
      (p.walkFrom firstPass entries).tables.files.keys := by
  rw [Walk.entered, (p.idle_walkFrom firstPass entries).active, List.append_nil]
  rfl

theorem nodup_keys_walkFrom (firstPass : FirstPass) (h : ∀ f ∈ entries, f ∈ p.files.ids) :
    (p.walkFrom firstPass entries).tables.files.keys.Nodup :=
  p.entered_walkFrom firstPass entries ▸ (explored_walkFrom firstPass h).1.nodup

theorem mem_keys_walkFrom_iff (firstPass : FirstPass) (h : ∀ f ∈ entries, f ∈ p.files.ids)
    (f : FileId) : f ∈ (p.walkFrom firstPass entries).tables.files.keys ↔ p.Reached entries f := by
  obtain ⟨hx, hin⟩ := explored_walkFrom firstPass h
  have hkeys := p.entered_walkFrom firstPass entries
  constructor
  · exact fun hf => hx.visits f (hkeys ▸ hf)
  · intro hf
    induction hf with
    | entry hmem => exact hin _ hmem
    | @load f t _ hload ih => exact hkeys ▸ hx.closed f ih t ((p.loads_iff firstPass).1 hload)

theorem count_mainFiles_walkFrom (h : ∀ f ∈ entries, f ∈ p.files.ids) (f : FileId) :
    (p.walkFrom firstPass entries).store.mainFiles.count f =
      if f ∈ (p.walkFrom firstPass entries).tables.files.keys ∧ p.hasTree f then 1 else 0 := by
  have hperm := (explored_walkFrom firstPass h).1.mains
  rw [entered_walkFrom] at hperm
  refine (hperm.count_eq f).trans ?_
  rw [((nodup_keys_walkFrom firstPass h).filter _).count]
  simp only [List.mem_filter]
  rfl

theorem guardedFrom_eq {refuse : Enter} (h : ∀ f ∈ entries, f ∈ p.files.ids) :
    p.guardedFrom refuse firstPass entries = p.walkFrom firstPass entries := by
  have hwalk := (idle_start (p.env .project firstPass) .project).forM_walkEntryGuarded_eq rfl
    refuse entries h
  change (
    let (_, w) := entries.forM (walkEntryGuarded (p.env .project firstPass) refuse)
      (.start .project)
    ProjectResult.mk w.store entries w.tables) = _
  rw [hwalk]
  rfl

theorem Reached.mono {entries' : List FileId} (h : ∀ f ∈ entries', f ∈ entries)
    (hf : p.Reached entries' f) : p.Reached entries f := by
  induction hf with
  | entry hmem => exact .entry (h _ hmem)
  | load _ hload ih => exact .load ih hload

/-- A check of registered files has an answer, which is about the files that the entries reach along
the loads of the first pass. Each of them is walked once: the store has one main function for it if
it has a tree, and no file is entered while it is on the stack or after it has been walked, since
refusing to do so would change nothing. The order of the entries does not matter. -/
theorem check_reaches_closure (hp : p.Reachable) {entries : List String}
    (h : p.Registered entries) : ∃ p' r, p.check entries = .ok (p', r) ∧ r.tables.files.keys.Nodup ∧
      (∀ f, f ∈ r.tables.files.keys ↔ p.Reached (p.entryIds entries) f) ∧
      (∀ f, r.store.mainFiles.count f = if f ∈ r.tables.files.keys ∧ p.hasTree f then 1 else 0) ∧
      (∀ refuse, p.guardedFrom refuse p.computeFirstPass (p.entryIds entries) = r) ∧
      ∀ entries', p.Registered entries' → (∀ f, f ∈ p.entryIds entries' ↔ f ∈ p.entryIds entries) →
        ∃ p'' r', p.check entries' = .ok (p'', r') ∧ ∀ f, f ∈ r'.tables.files.keys ↔
          f ∈ r.tables.files.keys := by
  have hids : ∀ entries', ∀ f ∈ p.entryIds entries', f ∈ p.files.ids :=
    fun _ _ => mem_ids_of_mem_entryIds
  obtain ⟨p', hcheck⟩ := check_eq hp.fresh h
  refine ⟨p', _, hcheck, nodup_keys_walkFrom _ (hids entries),
    mem_keys_walkFrom_iff _ (hids entries), count_mainFiles_walkFrom (hids entries), fun refuse =>
    guardedFrom_eq (hids entries), ?_⟩
  intro entries' h' hsame
  obtain ⟨p'', hcheck'⟩ := check_eq hp.fresh h'
  refine ⟨p'', _, hcheck', fun f => ?_⟩
  rw [mem_keys_walkFrom_iff _ (hids entries'), mem_keys_walkFrom_iff _ (hids entries)]
  exact ⟨.mono fun g => (hsame g).1, .mono fun g => (hsame g).2⟩

theorem loads_pair : pair.Loads ⟨0⟩ ⟨1⟩ ∧ pair.Loads ⟨1⟩ ⟨0⟩ := by
  have hfirst : ∃ l ∈ (pair.skeleton ⟨0⟩).references, l.2 = some ⟨1⟩ := by decide +kernel
  have hsecond : ∃ l ∈ (pair.skeleton ⟨1⟩).references, l.2 = some ⟨0⟩ := by decide +kernel
  obtain ⟨⟨l, -⟩, hl, rfl⟩ := hfirst
  obtain ⟨⟨l', -⟩, hl', rfl⟩ := hsecond
  exact ⟨loads_of_mem hl, loads_of_mem hl'⟩

theorem check_reaches_closure_pair : pair.Reachable ∧ pair.Registered ["b.lua", "b.lua"] ∧
    ∃ p' r, pair.check ["b.lua", "b.lua"] = .ok (p', r) ∧ r.tables.files.keys.Nodup ∧
      ⟨0⟩ ∈ r.tables.files.keys ∧
      r.store.mainFiles.count ⟨0⟩ = 1 := by
  have hregistered : pair.Registered ["b.lua", "b.lua"] := by
    intro path hpath
    simp only [List.mem_cons, List.not_mem_nil, or_false, or_self] at hpath
    subst hpath
    decide +kernel
  have hids : pair.entryIds ["b.lua", "b.lua"] = [⟨1⟩, ⟨1⟩] := by decide +kernel
  obtain ⟨p', r, hcheck, hnodup, hkeys, hmains, -⟩ :=
    check_reaches_closure reachable_pair hregistered
  have hmem : ⟨0⟩ ∈ r.tables.files.keys := by
    rw [hkeys, hids]
    exact .load (.entry List.mem_cons_self) loads_pair.2
  refine ⟨reachable_pair, hregistered, p', r, hcheck, hnodup, hmem, ?_⟩
  rw [hmains, if_pos ⟨hmem, by decide +kernel⟩]

end LuaAnalysis.Project
