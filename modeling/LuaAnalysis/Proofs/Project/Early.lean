import LuaAnalysis.Proofs.Project.Undefined
import LuaAnalysis.Proofs.Walk.Early

/-!
# Globals of a project that are read too early

A global that one file alone defines is lost to a walk of that file alone wherever it is read before
its definition. A check from entry files reports those of the reads that stand at top level as too
early, and nothing about the others: a function body runs later.
-/

namespace LuaAnalysis.Project

open WalkM

variable {p : Project} {f : FileId} {n : String} {a : FileAnalysis} {v : VariableId}

def earlyReads (p : Project) (n : String) (f : FileId) : List (TextRange × Bool) :=
  (p.env .fileLocal {}).earlyReads n f

/-- The file `f` alone defines the global `n`, by the variable `v`, and no file writes it as a
member of `_G`. -/
structure SoleDefiner (p : Project) (f : FileId) (n : String) (a : FileAnalysis)
    (v : VariableId) : Prop where
  first : p.computeFirstPass.get? f = some a
  own : a.result.globals.get? n = some v
  others : ∀ b ∈ p.computeFirstPass.analyses, b.result.file ≠ f → n ∉ b.result.globals.keys
  roots : ∀ b ∈ p.computeFirstPass.analyses, n ∉ b.result.rootGlobals.keys

namespace SoleDefiner

variable (h : p.SoleDefiner f n a v)
include h

theorem defines : p.defines n = true :=
  (p.defines_iff n).2 ⟨a, List.mem_of_find?_eq_some h.first, OrderedMap.mem_keys_of_get? h.own⟩

theorem eq_of_defines {found : FileAnalysis × VariableId}
    (hf : p.computeFirstPass.Defines n found) : found = (a, v) := by
  obtain ⟨b, x⟩ := found
  obtain ⟨hmem, hglobal | hroot⟩ := hf
  · have hfile : b.result.file = f := Decidable.byContradiction fun hne =>
      h.others b hmem hne (OrderedMap.mem_keys_of_get? hglobal)
    obtain ⟨g, -, hg⟩ := mem_computeFirstPass.1 hmem
    have hfirst := h.first
    rw [get?_computeFirstPass, ← hfile, file_of_analyse? hg, hg, Option.some.injEq] at hfirst
    subst hfirst
    exact congrArg (b, ·) (Option.some.inj (hglobal.symm.trans h.own))
  · exact absurd (OrderedMap.mem_keys_of_get? hroot) (h.roots b hmem)

theorem unfinishedDefinition?_eq {w : Walk} :
    unfinishedDefinition? (p.env .project p.computeFirstPass) w n = some (a, v) := by
  have hsome := (isSome_unfinishedDefinition?_iff (p.env .project p.computeFirstPass) w n).2
    (FirstPass.isSome_global?_iff.2 ((p.defines_iff n).1 h.defines))
  obtain ⟨found, hfound⟩ := Option.isSome_iff_exists.1 hsome
  rw [hfound, h.eq_of_defines (defines_unfinishedDefinition? hfound)]

theorem not_mem_skeleton {g : FileId} :
    (g ≠ f → n ∉ (p.skeleton g).globals) ∧ n ∉ (p.skeleton g).rootGlobals := by
  by_cases hg : g ∈ p.files.ids
  · obtain ⟨b, hb⟩ := p.exists_analyse? hg
    have hmem := mem_computeFirstPass.2 ⟨g, hg, hb⟩
    rw [← (Walked.fileLocal hb).skeleton_eq hg]
    exact ⟨fun hne => h.others b hmem (file_of_analyse? hb ▸ hne), h.roots b hmem⟩
  · rw [skeleton, WalkEnv.skeleton_of_not_mem hg]
    exact ⟨fun _ => List.not_mem_nil, List.not_mem_nil⟩

theorem sole_fileLocal : Sole (p.env .fileLocal {}) f n (definitionPlace n (a, v)) where
  others _ := h.not_mem_skeleton.1
  roots _ := h.not_mem_skeleton.2
  first := rfl
  pass := .inl rfl
  awaited hp := Pass.noConfusion hp

theorem sole_project : Sole (p.env .project p.computeFirstPass) f n (definitionPlace n (a, v)) where
  others g := h.not_mem_skeleton.1
  roots g := h.not_mem_skeleton.2
  first := by
    cases hf : p.computeFirstPass.rootGlobal? n with
    | none => exact hf
    | some found =>
      obtain ⟨b, hb, hroot⟩ :=
        FirstPass.isSome_rootGlobal?_iff.1 (Option.isSome_iff_exists.2 ⟨found, hf⟩)
      exact absurd hroot (h.roots b hb)
  pass := .inr rfl
  awaited _ w := by rw [h.unfinishedDefinition?_eq]; rfl

end SoleDefiner

theorem lostReads_analyse? (h : p.SoleDefiner f n a v) :
    (a.result.undefined.get? n).getD [] = (p.earlyReads n f).map (·.1) := by
  obtain ⟨-, w, hwalks, -⟩ := walks_of_analyse? (get?_computeFirstPass ▸ h.first)
  exact hwalks.lostReads h.sole_fileLocal rfl unmet_start List.not_mem_nil List.not_mem_nil

theorem early_walkFrom (h : p.SoleDefiner f n a v) {entries : List FileId}
    (hentries : ∀ g ∈ entries, g ∈ p.files.ids) {r : FileResult}
    (hr : (p.walkFrom p.computeFirstPass entries).tables.files.get? f = some r) :
    Early (p.env .project p.computeFirstPass) f n (definitionPlace n (a, v)) r := by
  have hunmet := (idle_start (p.env .project p.computeFirstPass) .project).forM_walkEntry
    (P := Unmet (p.env .project p.computeFirstPass) f n (definitionPlace n (a, v))) rfl hentries
    (fun g _ w w' hidle hw hv => hw.of_visits h.sole_project rfl hidle.active hv) unmet_start
  exact hunmet.results r hr

/-- Of a global that one file alone defines, a walk of that file alone loses the reads before the
definition. Every check from entry files that reaches the file reports, as reads before the
definition, those at top level and no others, as far as nothing suppresses it, and reports none as
undefined. -/
theorem early_use_eq_lost_at_top (hp : p.Reachable) (h : p.SoleDefiner f n a v) :
    (a.result.undefined.get? n).getD [] = (p.earlyReads n f).map (·.1) ∧
      ∀ entries p' walk r, p.check entries = .ok (p', walk) → walk.tables.files.get? f = some r →
        ∃ source, p.files.get? f = some source ∧
          r.diagnostics.filter (·.isEarlyUseOf n) =
            (((p.earlyReads n f).filter (·.2)).map fun u =>
              earlyDiagnostic source.path (n, u.1) (definitionPlace n (a, v))).filter
                ((p.env .project p.computeFirstPass).keeps source) ∧
          ∀ d ∈ r.diagnostics, d.kind = .undefinedGlobal →
            d.message ≠ s!"undefined global '{n}'" := by
  obtain ⟨source, hsource⟩ :=
    (p.files.mem_ids_iff f).1 (walks_of_analyse? (get?_computeFirstPass ▸ h.first)).1
  refine ⟨lostReads_analyse? h, fun entries p' walk r hcheck hr => ⟨source, hsource, ?_⟩⟩
  obtain ⟨_, hcheck'⟩ := check_eq hp.fresh (registered_of_check hp.fresh hcheck)
  obtain ⟨-, rfl⟩ : _ ∧ walk = _ := Prod.ext_iff.1 (Except.ok.inj (hcheck.symm.trans hcheck'))
  refine ⟨early_walkFrom h (fun _ => mem_ids_of_mem_entryIds) hr source hsource,
    fun d hd hkind hmessage => ?_⟩
  have hundefines := undefines_walkFrom (fun _ => mem_ids_of_mem_entryIds) hr
  obtain ⟨m, hm, hnot⟩ := not_defines_of_reported hsource hundefines hd hkind
  obtain rfl : m = n := by simpa [← String.toList_inj, toString] using hm.symm.trans hmessage
  rw [h.defines] at hnot
  cases hnot

/-- A file that reads a global before its definition, at top level and in a function, and waits for
another file in between. -/
def reading : Project :=
  (((ofConfig {}).addFile "a.lua"
    "print(x) require('b') function f() return x end print(x) x = 1 print(x)").1.addFile
    "b.lua" "print(x)").1

theorem early_use_eq_lost_at_top_reading :
    reading.Reachable ∧ ∃ a v, reading.SoleDefiner ⟨0⟩ "x" a v ∧
    ((a.result.undefined.get? "x").getD []).map (·.start.column) = [6, 42, 54] ∧
    ∀ entries p' walk r, reading.check entries = .ok (p', walk) →
      walk.tables.files.get? ⟨0⟩ = some r →
      (r.diagnostics.filter (·.isEarlyUseOf "x")).map (·.range.start.column) = [6, 54] := by
  have hreach : reading.Reachable := .addFile (.addFile (.ofConfig {}) _ _) _ _
  have hlost : ((reading.earlyReads "x" ⟨0⟩).map (·.1)).map (·.start.column) = [6, 42, 54] := by
    decide +kernel
  have hothers : ∀ b ∈ reading.computeFirstPass.analyses,
      (b.result.file ≠ ⟨0⟩ → "x" ∉ b.result.globals.keys) ∧
      "x" ∉ b.result.rootGlobals.keys := by decide +kernel
  have hearly : (reading.computeFirstPass.get? ⟨0⟩).bind
    (fun a => (a.result.globals.get? "x").bind fun v =>
      (reading.files.get? ⟨0⟩).map fun source =>
      ((((reading.earlyReads "x" ⟨0⟩).filter (·.2)).map fun u =>
        earlyDiagnostic source.path ("x", u.1) (definitionPlace "x" (a, v))).filter
          ((reading.env .project reading.computeFirstPass).keeps source)).map
          (·.range.start.column)) = some [6, 54] := by
    decide +kernel
  obtain ⟨a, hfirst, hearly⟩ := Option.bind_eq_some_iff.1 hearly
  obtain ⟨v, hown, hearly⟩ := Option.bind_eq_some_iff.1 hearly
  obtain ⟨source, hsource, hcolumns⟩ := Option.map_eq_some_iff.1 hearly
  have hsole : reading.SoleDefiner ⟨0⟩ "x" a v :=
    ⟨hfirst, hown, fun b hb => (hothers b hb).1, fun b hb => (hothers b hb).2⟩
  obtain ⟨hundefined, hchecks⟩ := early_use_eq_lost_at_top hreach hsole
  refine ⟨hreach, a, v, hsole, by rw [hundefined, hlost], fun entries p' walk r hcheck hr => ?_⟩
  obtain ⟨source', hsource', hreported, -⟩ := hchecks entries p' walk r hcheck hr
  obtain rfl : source = source' := Option.some.inj (hsource.symm.trans hsource')
  rw [hreported]
  exact hcolumns

end LuaAnalysis.Project
