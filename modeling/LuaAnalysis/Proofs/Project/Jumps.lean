import LuaAnalysis.Proofs.Project.Passes
import LuaAnalysis.Proofs.Walk.Jumps

/-!
# Jumps of a project

Which jumps of a file are reported is decided by its tree: every walk of the file, in whatever pass
and after whatever other files, finds those that see no label of their name.
-/

namespace LuaAnalysis.Project

open WalkM

variable {p : Project} {f : FileId} {source : SourceFile} {chunk : Chunk} {pass : Pass} {s : Store}
  {r : FileResult}

theorem mem_ids_of_get? (hsource : p.files.get? f = some source) : f ∈ p.files.ids :=
  (p.files.mem_ids_iff f).2 ⟨source, hsource⟩

theorem Walked.diagnostics_eq (hsource : p.files.get? f = some source)
    (htree : source.source.tree = .ok chunk) (h : p.Walked f pass s r) :
    ∃ (firstPass : FirstPass) (enter : Enter) (w : Walk), enter.Returns ∧
      w.store.WellFormed ∧
      r.diagnostics =
        (atEnd (p.env pass firstPass) enter f source chunk w).frame.findings.toList := by
  obtain ⟨firstPass, hfit⟩ := h.fits (mem_ids_of_get? hsource)
  obtain ⟨enter, w, he, hw, hr⟩ := hfit.ends source chunk hsource htree
  refine ⟨firstPass, enter, w, he, hw, ?_⟩
  rw [hr]
  generalize atEnd (p.env pass firstPass) enter f source chunk w = w'
  rfl

/-- Every walk of a file reports, once each, the jumps of its tree that see no label of their name
in a block around them inside the same function, as far as the pass reports such jumps and nothing
suppresses them. -/
theorem unknownGotos_eq_of_walked (p : Project) {f : FileId} {source : SourceFile} {chunk : Chunk}
    (hsource : p.files.get? f = some source) (htree : source.source.tree = .ok chunk)
    (pass : Pass) : (∃ s r, p.Walked f pass s r) ∧ ∀ s r, p.Walked f pass s r →
      r.diagnostics.filter (·.kind == .unknownGotoLabel) =
        (chunk.block.outline.lostGotos.map fun n =>
          gotoDiagnostic source.path n.text n.range).filter
          ((p.env pass {}).keeps source) := by
  refine ⟨p.exists_walked (mem_ids_of_get? hsource), fun s r h => ?_⟩
  obtain ⟨firstPass, enter, w, he, hw, hr⟩ := h.diagnostics_eq hsource htree
  rw [hr]
  exact jumpFindings_atEnd he hw

/-- A file with three jumps: past the block of their label, to a label further on, and out of a
function. -/
def jumping : Project :=
  ((ofConfig {}).addFile "a.lua" "goto a do ::a:: goto b end function f() goto b end ::b::").1

theorem unknownGotos_eq_of_walked_jumping : (∃ s r, jumping.Walked ⟨0⟩ .project s r) ∧
    ∀ s r, jumping.Walked ⟨0⟩ .project s r →
      ((r.diagnostics.filter (·.kind == .unknownGotoLabel)).map (·.range.start.column)) =
        [45, 5] := by
  have hlost : (jumping.files.get? ⟨0⟩).bind
    (fun source => source.source.tree.toOption.map fun chunk =>
      ((chunk.block.outline.lostGotos.map fun n => gotoDiagnostic source.path n.text n.range).filter
        ((jumping.env .project {}).keeps source)).map (·.range.start.column)) = some [45, 5] := by
    decide +kernel
  obtain ⟨source, hsource, hlost⟩ := Option.bind_eq_some_iff.1 hlost
  obtain ⟨chunk, hchunk, hcolumns⟩ := Option.map_eq_some_iff.1 hlost
  have htree : source.source.tree = .ok chunk := by
    cases h : source.source.tree with
    | error e => simp [h, Except.toOption] at hchunk
    | ok c => simpa [h, Except.toOption] using hchunk
  obtain ⟨hwalked, heq⟩ := jumping.unknownGotos_eq_of_walked hsource htree .project
  refine ⟨hwalked, fun s r h => ?_⟩
  rw [heq s r h]
  exact hcolumns

end LuaAnalysis.Project
