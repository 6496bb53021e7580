import LuaAnalysis.Proofs.Project.Reach
import LuaAnalysis.Proofs.Walk.Marks

/-!
# Cycles of loads

A check marks a reference exactly when the loads of the files that it reaches form a cycle, and each
marked reference is a step of one.
-/

namespace LuaAnalysis

open List Relation WalkM

def ProjectResult.Loads (r : ProjectResult) (f t : FileId) : Prop :=
  ∃ result, r.tables.files.get? f = some result ∧
    ∃ id ∈ result.references, (r.store.referenceAt id).target = some t

namespace Project

/-- Neither the settings nor a directive switches reports about the order of loads off. -/
def Unsilenced (p : Project) : Prop :=
  (p.env .project {}).Unsilenced

variable {p : Project} {f t : FileId}

theorem unmarked_computeFirstPass (p : Project) : p.computeFirstPass.Unmarked := by
  intro a ha
  obtain ⟨f, hf, hanalyse⟩ := mem_computeFirstPass.1 ha
  obtain ⟨-, w, hwalks, hs⟩ := walks_of_analyse? hanalyse
  rw [hs]
  exact hwalks.marked_eq (by decide : Pass.fileLocal ≠ .project) fun _ h => nomatch h

section Walk

variable {firstPass : FirstPass} {entries : List FileId}

theorem settled_walkFrom (hu : firstPass.Unmarked) (h : ∀ f ∈ entries, f ∈ p.files.ids) :
    Settled (p.env .project firstPass) (fun _ => False)
      (entries.forM (walkEntry (p.env .project firstPass)) (.start .project)).2 := by
  -- What is settled depends on what has been explored, so both are kept together.
  have hboth := (idle_start (p.env .project firstPass) .project).forM_walkEntry
    (P := fun w => Settled (p.env .project firstPass) (fun _ => False) w ∧
      Explored (p.env .project firstPass) (p.Reached entries) w) rfl h
    (fun f hf w w' hidle hw hv => ⟨hw.1.of_visits hidle hw.2 hu rfl Reached.of_loads (.entry hf) hv,
      (hw.2.of_visits hidle rfl Reached.of_loads (.entry hf) hv).1⟩) ⟨.start, .start⟩
  exact hboth.1

theorem loads_walkFrom_iff (h : ∀ f ∈ entries, f ∈ p.files.ids) :
    (p.walkFrom firstPass entries).Loads f t ↔ p.Reached entries f ∧ p.Loads f t := by
  have hfits := (p.idle_walkFrom firstPass entries).fits f
  rw [← mem_keys_walkFrom_iff firstPass h, p.loads_iff firstPass]
  constructor
  · rintro ⟨result, hresult, hid⟩
    refine ⟨OrderedMap.mem_keys_of_get? hresult, ?_⟩
    rw [WalkEnv.Loads, ← (hfits result hresult).skeleton]
    exact result.mem_references_skeleton_iff.2 hid
  · rintro ⟨hkey, hload⟩
    obtain ⟨result, hresult⟩ := Option.isSome_iff_exists.1 (OrderedMap.mem_keys_iff.1 hkey)
    rw [WalkEnv.Loads, ← (hfits result hresult).skeleton] at hload
    exact ⟨result, hresult, result.mem_references_skeleton_iff.1 hload⟩

theorem reaches_walkFrom (h : ∀ f ∈ entries, f ∈ p.files.ids) (hf : p.Reached entries f)
    (hpath : ReflTransGen (p.env .project firstPass).Loads f t) :
    ReflTransGen (p.walkFrom firstPass entries).Loads f t ∧ p.Reached entries t := by
  induction hpath with
  | refl => exact ⟨.refl, hf⟩
  | @tail g u _ hload ih =>
    obtain ⟨hpath, hg⟩ := ih
    have hload' := (p.loads_iff firstPass).2 hload
    exact ⟨hpath.tail ((loads_walkFrom_iff h).2 ⟨hg, hload'⟩), .load hg hload'⟩

theorem cycle_of_marked (hu : firstPass.Unmarked) (h : ∀ f ∈ entries, f ∈ p.files.ids)
    {id : ReferenceId} (hid : id ∈ (p.walkFrom firstPass entries).store.marked) :
    ∃ f result t, (p.walkFrom firstPass entries).tables.files.get? f = some result ∧
      id ∈ result.references ∧
      ((p.walkFrom firstPass entries).store.referenceAt id).target = some t ∧
      ReflTransGen (p.walkFrom firstPass entries).Loads t f := by
  have hsettled := settled_walkFrom hu h
  obtain ⟨f, result, hresult, hmem⟩ := (hsettled.owned id hid).resolve_left not_false
  obtain ⟨before, -, hjudged⟩ := (hsettled.results f result hresult).judged
  obtain ⟨t, ht, hback⟩ := hjudged.marked id hmem hid
  obtain ⟨hf, hload⟩ := (loads_walkFrom_iff h).1 ⟨result, hresult, id, hmem, ht⟩
  exact ⟨f, result, t, hresult, hmem, ht, (reaches_walkFrom h (.load hf hload) hback).1⟩

theorem idxOf_lt_of_listed {keys before : List FileId} (hnodup : keys.Nodup)
    (hlisted : before ++ [f] <+: keys) (ht : t ∈ before) : keys.idxOf t < keys.idxOf f := by
  obtain ⟨rest, rfl⟩ := hlisted
  have hf : f ∉ before := by
    intro hf
    have hdisjoint := (nodup_append.1 (nodup_append.1 hnodup).1).2.2
    exact hdisjoint f hf f mem_cons_self rfl
  rw [append_assoc, idxOf_append_of_mem ht, idxOf_append_of_notMem hf]
  have hlt := idxOf_lt_length_iff.2 ht
  omega

section

variable (hu : firstPass.Unmarked) (h : ∀ f ∈ entries, f ∈ p.files.ids)
include hu h

theorem idxOf_lt_of_loads (hnone : (p.walkFrom firstPass entries).store.marked = [])
    (hload : (p.walkFrom firstPass entries).Loads f t) :
    (p.walkFrom firstPass entries).tables.files.keys.idxOf t <
      (p.walkFrom firstPass entries).tables.files.keys.idxOf f := by
  obtain ⟨result, hresult, id, hid, ht⟩ := hload
  obtain ⟨before, hlisted, hjudged⟩ := ((settled_walkFrom hu h).results f result hresult).judged
  refine idxOf_lt_of_listed (nodup_keys_walkFrom firstPass h) hlisted
    (hjudged.unmarked id hid ?_ t ht)
  exact fun hmark => absurd (hnone ▸ hmark : id ∈ []) not_mem_nil

theorem marked_ne_nil_iff :
    (p.walkFrom firstPass entries).store.marked ≠ [] ↔
    ∃ f, TransGen (p.walkFrom firstPass entries).Loads f f := by
  constructor
  · intro hne
    obtain ⟨id, hid⟩ := exists_mem_of_ne_nil _ hne
    obtain ⟨f, result, t, hresult, hmem, ht, hback⟩ := cycle_of_marked hu h hid
    exact ⟨f, .head' ⟨result, hresult, id, hmem, ht⟩ hback⟩
  · rintro ⟨f, hcycle⟩ hnone
    have hdown : ∀ u, TransGen (p.walkFrom firstPass entries).Loads f u →
        (p.walkFrom firstPass entries).tables.files.keys.idxOf u <
          (p.walkFrom firstPass entries).tables.files.keys.idxOf f := by
      intro u hu'
      induction hu' with
      | single hload => exact idxOf_lt_of_loads hu h hnone hload
      | tail _ hload ih => exact (idxOf_lt_of_loads hu h hnone hload).trans ih
    exact Nat.lt_irrefl _ (hdown f hcycle)

theorem reported_iff_marked (hp : p.Unsilenced) :
    (∃ f result, (p.walkFrom firstPass entries).tables.files.get? f = some result ∧
      ∃ d ∈ result.diagnostics, d.isLoadCycle = true) ↔
        (p.walkFrom firstPass entries).store.marked ≠ [] := by
  have hsettled := settled_walkFrom hu h
  have hunsilenced : (p.env .project firstPass).Unsilenced := ⟨hp.suppression, hp.directives⟩
  constructor
  · rintro ⟨f, result, hresult, hd⟩
    obtain ⟨id, -, hid⟩ := ((hsettled.results f result hresult).reported hunsilenced).1 hd
    exact ne_nil_of_mem hid
  · intro hne
    obtain ⟨id, hid⟩ := exists_mem_of_ne_nil _ hne
    obtain ⟨f, result, hresult, hmem⟩ := (hsettled.owned id hid).resolve_left not_false
    exact ⟨f, result, hresult,
      ((hsettled.results f result hresult).reported hunsilenced).2 ⟨id, hmem, hid⟩⟩

end

end Walk

/-- A check of registered files marks a reference if and only if the loads of the reached files form
a cycle, and unless such reports are switched off it then reports one. Each marked reference is
recorded by a reached file and is a step of a cycle. -/
theorem check_marks_cycles (hp : p.Reachable) {entries : List String} (h : p.Registered entries) :
    ∃ p' r, p.check entries = .ok (p', r) ∧
      (r.store.marked ≠ [] ↔ ∃ f, TransGen r.Loads f f) ∧
      (∀ id ∈ r.store.marked, ∃ f result t, r.tables.files.get? f = some result ∧
        id ∈ result.references ∧
        (r.store.referenceAt id).target = some t ∧ ReflTransGen r.Loads t f) ∧
      (p.Unsilenced →
        ((∃ f result, r.tables.files.get? f = some result ∧
          ∃ d ∈ result.diagnostics, d.isLoadCycle = true) ↔
          ∃ f, TransGen r.Loads f f)) := by
  have hids : ∀ f ∈ p.entryIds entries, f ∈ p.files.ids := fun _ => mem_ids_of_mem_entryIds
  have hu := p.unmarked_computeFirstPass
  obtain ⟨p', hcheck⟩ := check_eq hp.fresh h
  refine ⟨p', _, hcheck, marked_ne_nil_iff hu hids, fun _ => cycle_of_marked hu hids, fun hs => ?_⟩
  rw [reported_iff_marked hu hids hs, marked_ne_nil_iff hu hids]

theorem unsilenced_pair : pair.Unsilenced where
  suppression _ := rfl
  directives f source hsource line := by
    have hnone : ∀ file ∈ pair.files.files.toList, file.source.directives.byLine = {} := by
      decide +kernel
    rw [Directives.isDisabled,
      hnone source (Array.mem_toList_iff.2 (Array.mem_of_getElem? hsource))]
    rfl

theorem check_marks_cycles_pair : pair.Reachable ∧ pair.Registered [] ∧ pair.Unsilenced ∧
    ∃ p' r, pair.check [] = .ok (p', r) ∧ r.store.marked ≠ [] ∧
      ∃ f result, r.tables.files.get? f = some result ∧
        ∃ d ∈ result.diagnostics, d.isLoadCycle = true := by
  have hregistered : pair.Registered [] := fun _ h => nomatch h
  obtain ⟨p', r, hcheck, hmarked, -, hreported⟩ := check_marks_cycles reachable_pair hregistered
  have hcycle : ∃ f, TransGen r.Loads f f := by
    obtain ⟨p'', hcheck'⟩ := check_eq reachable_pair.fresh hregistered
    obtain ⟨-, rfl⟩ : _ ∧ r = _ := Prod.ext_iff.1 (Except.ok.inj (hcheck.symm.trans hcheck'))
    have hids : ∀ f ∈ pair.entryIds [], f ∈ pair.files.ids := fun _ => mem_ids_of_mem_entryIds
    have hreached : ∀ f ∈ pair.files.ids, pair.Reached (pair.entryIds []) f := fun _ hf => .entry hf
    obtain ⟨hfirst, hsecond⟩ := loads_pair
    refine ⟨⟨0⟩, .tail (b := ⟨1⟩) (.single ?_) ?_⟩
    · exact (loads_walkFrom_iff hids).2 ⟨hreached _ (by decide +kernel), hfirst⟩
    · exact (loads_walkFrom_iff hids).2 ⟨hreached _ (by decide +kernel), hsecond⟩
  exact ⟨reachable_pair, hregistered, unsilenced_pair, p', r, hcheck, hmarked.2 hcycle,
    (hreported unsilenced_pair).2 hcycle⟩

end Project

end LuaAnalysis
