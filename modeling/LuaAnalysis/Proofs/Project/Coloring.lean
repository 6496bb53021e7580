import LuaAnalysis.Proofs.Project.References

/-!
# Colored names

A colored file shows each of its names once, in the order of the text. The names are those of the
tree, whatever the other files hold: no two of them touch, so that the order by their starts is
strict.
-/

namespace LuaAnalysis.Project

variable {p : Project} {f : FileId}

theorem pairwise_inTextOrder {names : List Occurrence} :
    (inTextOrder names).Pairwise fun a b => a.range.start ≤ b.range.start := by
  refine (List.pairwise_mergeSort ?_ ?_ names).imp fun hab => by simpa using hab
  · intro a b c hab hbc
    simp only [decide_eq_true_eq] at hab hbc ⊢
    exact Position.le_trans hab hbc
  · intro a b
    simp only [Bool.or_eq_true, decide_eq_true_eq]
    by_cases hle : a.range.start ≤ b.range.start
    · exact .inl hle
    · exact .inr (Position.not_lt.1 fun hlt => hle (Position.le_of_lt hlt))

theorem Reachable.pairwise_namesOf (h : p.Reachable) :
    (p.namesOf p.computeFirstPass f).Pairwise fun a b => a.range.start < b.range.start := by
  have hclear := h.clear_namesOf f
  have hdistinct : (p.namesOf p.computeFirstPass f).Pairwise fun a b => a.range ≠ b.range :=
    List.pairwise_map.1 hclear.nodup
  refine (pairwise_inTextOrder.and hdistinct).imp_of_mem fun ha hb hab => ?_
  obtain ⟨hle, hne⟩ := hab
  rcases Position.lt_or_eq_of_le hle with hlt | heq
  · exact hlt
  · exact absurd (hclear.eq_of_start_eq (List.mem_map_of_mem ha) (List.mem_map_of_mem hb) heq) hne

theorem classify_eq {path : String} (hp : p.Fresh) (hid : p.files.idOf? path = some f) :
    p.classify path =
      .ok (p.withFirstPass, (p.namesOf p.computeFirstPass f).map fun o =>
        ⟨o.range, o.symbolClass⟩) := by
  have hfile : p.fileId path = .ok f := by rw [fileId, hid]
  unfold classify
  rw [hfile, hp.ensureFirstPass]
  rfl

/-- The spans of a colored file start one after another, and they are, once each, the names that its
tree mentions: the names that are read and written, those that are declared, the first names of
function statements and the keys of `_G` that are written. -/
theorem classify_covers_mentions (hp : p.Reachable) {path : String}
    (hid : p.files.idOf? path = some f) :
    ∃ p' spans, p.classify path = .ok (p', spans) ∧
      spans.Pairwise (fun a b => a.range.start < b.range.start) ∧
      (spans.map (·.range)).Perm ((p.files.mentions f).map (·.range)) := by
  refine ⟨_, _, classify_eq hp.fresh hid, List.pairwise_map.2 hp.pairwise_namesOf, ?_⟩
  rw [List.map_map]
  exact p.perm_ranges_namesOf

theorem classify_covers_mentions_pair : pair.Reachable ∧ pair.files.idOf? "b.lua" = some ⟨1⟩ ∧
    ∃ p' spans, pair.classify "b.lua" = .ok (p', spans) ∧
      spans.Pairwise (fun a b => a.range.start < b.range.start) ∧
      (spans.map (·.range)).Perm
        [.ofCoords 0 0 0 7, .ofCoords 0 13 0 18, .ofCoords 0 19 0 20, .ofCoords 0 22 0 23] := by
  have hid : pair.files.idOf? "b.lua" = some ⟨1⟩ := by decide +kernel
  have hranges : (pair.files.mentions ⟨1⟩).map (·.range) =
      [.ofCoords 0 0 0 7, .ofCoords 0 13 0 18, .ofCoords 0 19 0 20, .ofCoords 0 22 0 23] := by
      decide +kernel
  obtain ⟨p', spans, hspans, hsorted, hperm⟩ := classify_covers_mentions reachable_pair hid
  rw [hranges] at hperm
  exact ⟨reachable_pair, hid, p', spans, hspans, hsorted, hperm⟩

end LuaAnalysis.Project
