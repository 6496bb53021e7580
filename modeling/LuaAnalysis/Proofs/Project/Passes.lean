import LuaAnalysis.Project.Basic
import LuaAnalysis.Proofs.Walk.Entry

/-!
# All passes see the same file

A file is walked in five passes, alone or on the way through other files, with different things
known about the rest of the project. Every one of these walks finds the skeleton of the file's tree:
the same globals in the same order, the same loads, the same scopes with the same locals.
-/

namespace LuaAnalysis

open WalkM

def Project.skeleton (p : Project) (f : FileId) : Skeleton :=
  (p.env .fileLocal {}).skeleton f

inductive Project.Walked (p : Project) (f : FileId) : Pass → Store → FileResult → Prop
  | fileLocal {a : FileAnalysis} (h : p.analyse? f = some a) :
      Walked p f .fileLocal a.store a.result
  | project (firstPass : FirstPass) (entries : List FileId) {r : FileResult}
      (h : (p.walkFrom firstPass entries).tables.files.get? f = some r) :
    Walked p f .project (p.walkFrom firstPass entries).store r
  /-- After other files. -/
  | later {pass : Pass} (hpass : pass ≠ .fileLocal ∧ pass ≠ .project) (firstPass : FirstPass)
      (earlier : List FileId)
      {r : FileResult} {w : Walk}
      (h : (do
        earlier.forM fun g => discard (walkAlone (p.env pass firstPass) g)
        walkAlone (p.env pass firstPass) f).run (.start pass) = (some r, w)) :
    Walked p f pass w.store r

variable {pass : Pass}

namespace Project

variable {p : Project} {f : FileId} {r : FileResult} {s : Store}

theorem idle_earlier (p : Project) {firstPass : FirstPass} {earlier : List FileId} :
    Idle (p.env pass firstPass)
      ((earlier.forM fun g => discard (walkAlone (p.env pass firstPass) g)) (.start pass)).2 :=
  (idle_start _ pass).forM (fun g _ hw => hw.walkAlone g)

theorem idle_walkFrom (p : Project) (firstPass : FirstPass) (entries : List FileId) :
    Idle (p.env .project firstPass)
      ((entries.forM (walkEntry (p.env .project firstPass))) (.start .project)).2 :=
  (idle_start _ .project).forM (fun g _ hw => hw.walkEntry rfl g)

theorem analyse?_eq :
    p.analyse? f = (walkAlone (p.env .fileLocal {}) f (.start .fileLocal)).1.map fun result =>
      { store := (walkAlone (p.env .fileLocal {}) f (.start .fileLocal)).2.store, result } := rfl

theorem exists_analyse? (p : Project) (hf : f ∈ p.files.ids) : ∃ a, p.analyse? f = some a := by
  obtain ⟨r, w, heq, -⟩ := (idle_start (p.env .fileLocal {}) .fileLocal).walks hf
  rw [analyse?_eq, heq]
  exact ⟨_, rfl⟩

theorem walks_of_analyse? {a : FileAnalysis} (h : p.analyse? f = some a) :
    f ∈ p.files.ids ∧ ∃ w, Walks (p.env .fileLocal {}) f (.start .fileLocal) a.result w ∧
    a.store = w.store := by
  rw [analyse?_eq] at h
  by_cases hf : f ∈ p.files.ids
  · obtain ⟨r, w, heq, hwalks⟩ := (idle_start (p.env .fileLocal {}) .fileLocal).walks hf
    rw [heq] at h
    cases h
    exact ⟨hf, w, hwalks, rfl⟩
  · have hnone : walkAlone (p.env .fileLocal {}) f (.start .fileLocal) = (none, _) :=
      walkAlone_of_not_mem hf
    rw [hnone] at h
    cases h

theorem Walked.fits (hf : f ∈ p.files.ids) (h : p.Walked f pass s r) :
    ∃ firstPass, Fits (p.env pass firstPass) s [] f r := by
  cases h with
  | fileLocal h =>
    obtain ⟨-, w, hwalks, hs⟩ := walks_of_analyse? h
    rw [hs]
    exact ⟨{}, ((idle_start _ _).of_walks hwalks).2⟩
  | project firstPass entries h => exact ⟨firstPass, (p.idle_walkFrom firstPass entries).fits f r h⟩
  | later hpass firstPass earlier h =>
    obtain ⟨r', w, heq, hwalks⟩ := p.idle_earlier.walks hf
    have hout : walkAlone (p.env pass firstPass) f
        ((earlier.forM fun g => discard (walkAlone (p.env pass firstPass) g)) (.start pass)).2 =
        (some r, _) := h
    cases hout.symm.trans heq
    exact ⟨firstPass, (p.idle_earlier.of_walks hwalks).2⟩

theorem Walked.skeleton_eq (hf : f ∈ p.files.ids) (h : p.Walked f pass s r) :
    r.skeleton s = p.skeleton f := by
  obtain ⟨_, hfit⟩ := h.fits hf
  exact hfit.skeleton

theorem exists_walked_later (p : Project) (hf : f ∈ p.files.ids)
    (hpass : pass ≠ .fileLocal ∧ pass ≠ .project) : ∃ s r, p.Walked f pass s r := by
  obtain ⟨r, w, heq, -⟩ := (idle_start (p.env pass {}) pass).walks hf
  exact ⟨_, r, .later hpass {} [] heq⟩

theorem exists_walked (p : Project) (hf : f ∈ p.files.ids) : ∃ s r, p.Walked f pass s r := by
  cases pass with
  | fileLocal =>
    obtain ⟨a, ha⟩ := p.exists_analyse? hf
    exact ⟨_, _, .fileLocal ha⟩
  | project =>
    rcases (idle_start (p.env .project {}) .project).walkEntry_cases rfl
      hf with ⟨hmem, -⟩ | ⟨-, r, w, -, -, hw⟩
    · cases hmem
    · refine ⟨_, r, .project {} [f] ?_⟩
      change (walkEntry (p.env .project {}) f (.start .project)).2.tables.files.get? f = some r
      rw [hw, walked, OrderedMap.get?_insert, if_pos rfl]
  | scattered => exact p.exists_walked_later hf ⟨by decide, by decide⟩
  | referenceSearch => exact p.exists_walked_later hf ⟨by decide, by decide⟩
  | coloring => exact p.exists_walked_later hf ⟨by decide, by decide⟩

/-- Every pass walks every file, and every walk of a file shows the skeleton of its tree, whatever
was walked before and whatever is known about other files. -/
theorem skeleton_eq_of_walked (p : Project) {f : FileId} (hf : f ∈ p.files.ids) (pass : Pass) :
    (∃ s r, p.Walked f pass s r) ∧ ∀ s r, p.Walked f pass s r → r.skeleton s = p.skeleton f :=
  ⟨p.exists_walked hf, fun _ _ h => h.skeleton_eq hf⟩

/-- Two files that load each other. The second one uses a global of the first and a name that
nothing defines. -/
def pair : Project :=
  (((ofConfig {}).addFile "a.lua" "require('b') g = 1").1.addFile "b.lua"
    "require('a') print(g, h)").1

theorem skeleton_eq_of_walked_pair :
    ⟨0⟩ ∈ pair.files.ids ∧ (∃ s r, pair.Walked ⟨0⟩ .scattered s r) ∧
    ∀ s r, pair.Walked ⟨0⟩ .scattered s r → r.globals.keys = ["g"] := by
  have hmem : ⟨0⟩ ∈ pair.files.ids := by decide +kernel
  have hglobals : (pair.skeleton ⟨0⟩).globals = ["g"] := by decide +kernel
  obtain ⟨hwalked, hskeleton⟩ := pair.skeleton_eq_of_walked hmem .scattered
  refine ⟨hmem, hwalked, fun s r h => ?_⟩
  rw [← hglobals, ← hskeleton s r h]
  rfl

end Project

end LuaAnalysis
