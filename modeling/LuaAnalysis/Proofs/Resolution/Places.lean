import LuaAnalysis.Proofs.Resolution.Bindings
import LuaAnalysis.Proofs.Tree.Statements
import Mathlib.Data.List.Pairwise

/-!
# Names do not share places

The names that a tree mentions stand on different sites (`Block.tied`), and the sites of a text do
not touch. So a position of a file touches at most one of its names, and the place of a name tells
it from all others (`FileIndex.clear_mentions`).
-/

namespace LuaAnalysis

namespace TextRange

variable {rs rs' : List TextRange}

/-- No position touches two of the ranges. -/
structure Clear (rs : List TextRange) : Prop where
  nodup : rs.Nodup
  touch : ∀ a ∈ rs, ∀ b ∈ rs, ∀ p, a.contains p = true → b.contains p = true → a = b
  /-- A range touches the position where it starts. -/
  start : ∀ a ∈ rs, a.contains a.start = true

theorem contains_iff {r : TextRange} {p : Position} :
    r.contains p = true ↔ r.start ≤ p ∧ p ≤ r.stop := by
  simp [contains]

theorem clear_of_apart (h : rs.Pairwise (fun a b => a.stop < b.start))
    (hwide : ∀ r ∈ rs, r.start < r.stop) : Clear rs := by
  have hapart : rs.Pairwise
      (fun a b => ∀ p, a.contains p = true → b.contains p = true → False) := by
    refine h.imp fun hlt p ha hb => ?_
    rw [contains_iff] at ha hb
    exact Position.lt_irrefl (Position.lt_of_le_of_lt ha.2 (Position.lt_of_lt_of_le hlt hb.1))
  have hstart : ∀ r ∈ rs, r.contains r.start = true := fun r hr =>
    contains_iff.2 ⟨Position.le_refl _, Position.le_of_lt (hwide r hr)⟩
  have hsymm : Std.Symm fun a b : TextRange => ∀ p, a.contains p = true →
    b.contains p = true → False :=
    ⟨fun a b hab p hb ha => hab p ha hb⟩
  refine ⟨?_, fun a ha b hb p hap hbp => ?_, hstart⟩
  · refine hapart.imp_of_mem fun ha _ hab heq => ?_
    exact hab _ (hstart _ ha) (heq ▸ hstart _ ha)
  · by_contra hne
    exact hapart.forall ha hb hne p hap hbp

theorem Clear.subperm (h : Clear rs) (hsub : rs'.Subperm rs) : Clear rs' := by
  have hmem := hsub.subset
  refine ⟨?_, fun a ha b hb => h.touch a (hmem ha) b (hmem hb), fun a ha => h.start a (hmem ha)⟩
  obtain ⟨l, hperm, hsublist⟩ := hsub
  exact hperm.nodup_iff.1 (h.nodup.sublist hsublist)

end TextRange

theorem Source.clear_mentions {text : String} {chunk : Chunk} (h : (parse text).tree = .ok chunk)
    {file : FileId} : TextRange.Clear ((chunk.mentions file).map Mention.range) := by
  obtain ⟨tokens, hspaced, hsited⟩ := sited_of_parse h
  refine (TextRange.clear_of_apart (hsited.apart hspaced) fun r hr => ?_).subperm
    (chunk.block.tied (D := fun _ => True) _).within
  obtain ⟨t, ht, rfl⟩ := hsited.mem hr
  exact hspaced.wide t ht

theorem FileIndex.clear_mentions {x : FileIndex} {f : FileId}
    (hread : ∀ source, x.get? f = some source → ∃ text, source.source = Source.parse text) :
    TextRange.Clear ((x.mentions f).map Mention.range) := by
  have hnil : TextRange.Clear [] := ⟨.nil, nofun, nofun⟩
  cases hfile : x.get? f with
  | none =>
    rw [mentions_of_none hfile]
    exact hnil
  | some source =>
    obtain ⟨text, hsource⟩ := hread source hfile
    cases htree : source.source.tree with
    | error e =>
      rw [mentions_of_error hfile htree]
      exact hnil
    | ok chunk =>
      rw [mentions_of_ok hfile htree]
      rw [hsource] at htree
      exact Source.clear_mentions htree

end LuaAnalysis
