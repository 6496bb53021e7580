import LuaAnalysis.Project.Basic
import Mathlib.Data.List.Basic

/-!
# Merged diagnostics

The diagnostics of a file are those of its first pass and of the pass after it, in the order of
their ranges and kinds, and of several with the same kind, range and message the one that came
first. Sorting is stable, so that one still comes first in the sorted list.
-/

namespace LuaAnalysis

open List

instance : Std.TransOrd Position :=
  inferInstanceAs (Std.TransCmp (compareLex (compareOn Position.line) (compareOn Position.column)))

instance : Std.TransOrd TextRange :=
  inferInstanceAs (Std.TransCmp (compareLex (compareOn TextRange.start) (compareOn TextRange.stop)))

instance : Std.TransOrd Kind :=
  inferInstanceAs (Std.TransCmp (compareOn Kind.rank))

namespace Diagnostic

/-- The order of ranges, and of kinds for equal ranges. -/
def order (a b : Diagnostic) : Ordering :=
  (compare a.range b.range).then (compare a.kind b.kind)

instance : Std.TransCmp order :=
  inferInstanceAs
    (Std.TransCmp (compareLex (compareOn Diagnostic.range) (compareOn Diagnostic.kind)))

def Same (a b : Diagnostic) : Prop :=
  a.kind = b.kind ∧ a.range = b.range ∧ a.message = b.message

instance (a b : Diagnostic) : Decidable (Same a b) :=
  inferInstanceAs (Decidable (_ ∧ _ ∧ _))

theorem Same.symm {a b : Diagnostic} (h : Same a b) : Same b a :=
  ⟨h.1.symm, h.2.1.symm, h.2.2.symm⟩

theorem Same.trans {a b c : Diagnostic} (h : Same a b) (h' : Same b c) : Same a c :=
  ⟨h.1.trans h'.1, h.2.1.trans h'.2.1, h.2.2.trans h'.2.2⟩

/-- The order as a test: `a` may stand before `b`. -/
def precedes (a b : Diagnostic) : Bool :=
  order a b ≠ .gt

theorem precedes_iff {a b : Diagnostic} : precedes a b = true ↔ (order a b).isLE = true := by
  rw [precedes, decide_eq_true_eq, Ordering.isLE_iff_ne_gt]

theorem precedes_trans (a b c : Diagnostic) (h : precedes a b = true) (h' : precedes b c = true) :
    precedes a c = true := by
  rw [precedes_iff] at *
  exact Std.TransCmp.isLE_trans h h'

theorem precedes_total (a b : Diagnostic) : (precedes a b || precedes b a) = true := by
  have hswap : order b a = (order a b).swap := Std.OrientedCmp.eq_swap
  rw [Bool.or_eq_true, precedes_iff, precedes_iff, hswap]
  cases order a b <;> simp

theorem Same.precedes {a b : Diagnostic} (h : Same a b) : precedes a b = true := by
  have hself : order a b = order b b := by rw [order, h.1, h.2.1, order]
  have heq : order b b = .eq := Std.ReflCmp.compare_self
  rw [precedes_iff, hself, heq]
  rfl

end Diagnostic

namespace Project

open Diagnostic

variable {ds first later : List Diagnostic} {d e : Diagnostic}

/-! ## The first of each -/

theorem firstOfEach_cons (d : Diagnostic) (ds : List Diagnostic) :
    firstOfEach (d :: ds) = d :: (firstOfEach ds).filter fun e => ¬ Same e d := by
  rw [firstOfEach]
  refine congrArg _ (filter_congr fun e _ => ?_)
  rw [Bool.eq_iff_iff]
  simp [Same, or_assoc]

theorem sublist_firstOfEach (ds : List Diagnostic) : (firstOfEach ds).Sublist ds := by
  induction ds with
  | nil => exact .slnil
  | cons d ds ih =>
    rw [firstOfEach_cons]
    exact (filter_sublist.trans ih).cons_cons d

theorem pairwise_firstOfEach (ds : List Diagnostic) :
    (firstOfEach ds).Pairwise fun a b => ¬ Same a b := by
  induction ds with
  | nil => exact .nil
  | cons d ds ih =>
    rw [firstOfEach_cons]
    refine .cons (fun e he hsame => ?_) (ih.filter _)
    have hother := (mem_filter.1 he).2
    simp only [decide_eq_true_eq] at hother
    exact hother hsame.symm

theorem mem_firstOfEach (ds : List Diagnostic) :
    d ∈ firstOfEach ds ↔ ds.find? (Same d ·) = some d := by
  induction ds with
  | nil => simp [firstOfEach]
  | cons a ds ih =>
    rw [firstOfEach_cons, mem_cons, mem_filter, ih, find?_cons]
    by_cases hsame : Same d a
    · simp only [hsame, decide_true, Option.some.injEq, not_true, decide_false, Bool.false_eq_true,
        and_false, or_false, eq_comm]
    · have hne : d ≠ a := fun heq => hsame (heq ▸ ⟨rfl, rfl, rfl⟩)
      simp [hsame, hne]

/-! ## Sorting -/

theorem filter_mergeSort (d : Diagnostic) (ds : List Diagnostic) :
    (ds.mergeSort precedes).filter (Same d ·) = ds.filter (Same d ·) := by
  have hsame : (ds.filter (Same d ·)).Pairwise (precedes · · = true) := by
    refine pairwise_of_forall_mem_list fun a ha b hb => ?_
    have ha := (mem_filter.1 ha).2
    have hb := (mem_filter.1 hb).2
    simp only [decide_eq_true_eq] at ha hb
    exact (ha.symm.trans hb).precedes
  have hsub := (sublist_mergeSort precedes_trans precedes_total hsame filter_sublist).filter
    (Same d ·)
  rw [filter_filter] at hsub
  simp only [Bool.and_self] at hsub
  exact (hsub.eq_of_length (((mergeSort_perm ds precedes).filter _).length_eq).symm).symm

theorem mergeDiagnostics_eq (ds : List Diagnostic) :
    mergeDiagnostics ds = firstOfEach (ds.mergeSort precedes) :=
  rfl

theorem mem_mergeDiagnostics (ds : List Diagnostic) :
    d ∈ mergeDiagnostics ds ↔ ds.find? (Same d ·) = some d := by
  rw [mergeDiagnostics_eq, mem_firstOfEach, ← head?_filter, filter_mergeSort, head?_filter]

theorem pairwise_mergeDiagnostics (ds : List Diagnostic) :
    (mergeDiagnostics ds).Pairwise (precedes · · = true) :=
  (pairwise_mergeSort precedes_trans precedes_total ds).sublist (sublist_firstOfEach _)

theorem find?_same (h : Same d e) (ds : List Diagnostic) :
    ds.find? (Same d ·) = ds.find? (Same e ·) := by
  have hpred : (fun a => decide (Same d a)) = fun a => decide (Same e a) :=
    funext fun a => decide_eq_decide.2 ⟨h.symm.trans, h.trans⟩
  rw [hpred]

/-- The diagnostics of two passes as one list: by range and kind, without two that say the same, and
with what each of the passes says, in the words of the first one that says it. -/
structure Merges (first later merged : List Diagnostic) : Prop where
  sorted : merged.Pairwise fun a b => order a b ≠ .gt
  distinct : merged.Pairwise fun a b => ¬ Same a b
  represented : ∀ e ∈ first ++ later, ∃! d, d ∈ merged ∧ Same e d
  of_first : ∀ d ∈ merged, ∀ e ∈ first, Same d e → d ∈ first
  subset : ∀ d ∈ merged, d ∈ first ++ later

theorem merges_mergeDiagnostics (first later : List Diagnostic) :
    Merges first later (mergeDiagnostics (first ++ later)) where
  sorted := (pairwise_mergeDiagnostics _).imp fun h => by simpa [precedes] using h
  distinct := pairwise_firstOfEach _
  represented e he := by
    obtain ⟨d, hd⟩ := Option.isSome_iff_exists.1
      (find?_isSome.2 ⟨e, he, by simp [Same]⟩ : ((first ++ later).find? (Same e ·)).isSome)
    have hsame : Same e d := by simpa using find?_some hd
    refine ⟨d, ⟨(mem_mergeDiagnostics _).2 (find?_same hsame _ ▸ hd), hsame⟩,
      fun d' ⟨hmem, hsame'⟩ => ?_⟩
    rw [mem_mergeDiagnostics, ← find?_same hsame', hd] at hmem
    exact (Option.some.inj hmem).symm
  of_first d hd e he hsame := by
    have hfirst : (first.find? (Same d ·)).isSome := find?_isSome.2 ⟨e, he, by simpa using hsame⟩
    obtain ⟨d', hd'⟩ := Option.isSome_iff_exists.1 hfirst
    rw [mem_mergeDiagnostics, find?_append, hd'] at hd
    exact Option.some.inj hd ▸ mem_of_find?_eq_some hd'
  subset d hd := mem_of_find?_eq_some ((mem_mergeDiagnostics _).1 hd)

/-- The diagnostics of a registered file are those of its first pass merged with those of the walk
that reached it, or else of its own check. -/
theorem diagnostics_merges (p : Project) {path : String} {id : FileId}
    (h : p.files.idOf? path = some id) : ∃ merged, p.diagnostics path = .ok merged ∧
      Merges (((p.firstPass.bind (·.get? id)).map (·.result.diagnostics)).getD [])
        ((((p.result.bind (·.tables.files.get? id)).or (p.scattered.get? id)).map
          (·.diagnostics)).getD []) merged := by
  refine ⟨p.diagnosticsOf id, ?_, ?_⟩
  · rw [diagnostics, fileId, h]
    rfl
  · have hlater : p.laterResult? id =
      (p.result.bind (·.tables.files.get? id)).or (p.scattered.get? id) :=
      Option.or_eq_orElse.symm
    rw [diagnosticsOf, ← hlater]
    exact merges_mergeDiagnostics _ _

/-- What both passes say of a file, and what only the later one says of a place before that. -/
def saidTwice (related : List RelatedPlace) : Diagnostic :=
  ⟨.binaryOperandType, "m", "a", .ofCoords 1 0 1 1, related⟩

def saidLater : Diagnostic :=
  ⟨.undefinedGlobal, "g", "a", .ofCoords 0 0 0 1, []⟩

def twicePassed : Project :=
  { files := (FileIndex.insert .empty "a" "").1
    firstPass := some
      ⟨[⟨{}, { file := ⟨0⟩, path := "a", diagnostics := [saidTwice [⟨"a", "n", default⟩]] }⟩]⟩
    scattered := ⟨[(⟨0⟩, { file := ⟨0⟩, path := "a", diagnostics := [saidTwice [], saidLater] })]⟩ }

theorem diagnostics_merges_twicePassed :
    twicePassed.files.idOf? "./a" = some ⟨0⟩ ∧
    ∃ merged, twicePassed.diagnostics "./a" = .ok merged ∧
      Merges [saidTwice [⟨"a", "n", default⟩]] [saidTwice [], saidLater] merged := by
  have h : twicePassed.files.idOf? "./a" = some ⟨0⟩ := by decide +kernel
  exact ⟨h, diagnostics_merges twicePassed h⟩

end Project

end LuaAnalysis
