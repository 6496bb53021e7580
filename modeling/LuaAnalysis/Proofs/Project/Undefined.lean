import LuaAnalysis.Proofs.Project.History
import LuaAnalysis.Proofs.Walk.Undefined

/-!
# Undefined names of a project

A check of one file and a check from entry files find the same undefined names in a file: those that
the first pass found and that no file of the project defines.
-/

namespace LuaAnalysis

open List WalkM

variable {r : FileResult}

namespace WalkM

variable {env : WalkEnv} {f : FileId} {w : Walk}

theorem Walks.reports {w' : Walk} (h : Walks env f w r w') {d : Diagnostic} (hd : d ∈ r.diagnostics)
    (hkind : d.kind = .undefinedGlobal) :
    env.pass.reports .undefinedGlobal env.realtime = true := by
  have hchecks : ∀ source, env.keeps source d = true →
      env.pass.reports .undefinedGlobal env.realtime = true := by
    intro source hkeeps
    rw [WalkEnv.keeps, Gate.admits, Bool.and_eq_true, hkind] at hkeeps
    exact hkeeps.1
  cases h with
  | @broken _ _ source => exact hchecks source (mem_filter.1 hd).2
  | @read _ _ _ source _ _ run =>
    refine hchecks source (run.admits (D := fun _ => true) (fun d hd => ?_) d
      (mem_filter.2 ⟨hd, by simp [hkind]⟩))
    exact absurd hd not_mem_nil

end WalkM

namespace Project

/-- Whether some file defines a global, as far as the first pass sees. -/
def defines (p : Project) (name : String) : Bool :=
  p.computeFirstPass.analyses.any fun a => a.result.globals.contains name

variable {p : Project} {f : FileId} {a : FileAnalysis} {source : SourceFile}

theorem defines_iff (p : Project) (name : String) :
    p.defines name = true ↔ ∃ a ∈ p.computeFirstPass.analyses, name ∈ a.result.globals.keys := by
  simp only [defines, any_eq_true, OrderedMap.contains_iff]

theorem skeleton_of_mem_computeFirstPass (ha : a ∈ p.computeFirstPass.analyses) :
    ∃ f, a.result.skeleton a.store = p.skeleton f := by
  obtain ⟨f, hf, hanalyse⟩ := mem_computeFirstPass.1 ha
  exact ⟨f, (Walked.fileLocal hanalyse).skeleton_eq hf⟩

theorem defines_of_mem_skeleton {n : String} (hn : n ∈ (p.skeleton f).globals) :
    p.defines n = true := by
  by_cases hf : f ∈ p.files.ids
  · obtain ⟨a, ha⟩ := p.exists_analyse? hf
    rw [← (Walked.fileLocal ha).skeleton_eq hf] at hn
    exact (p.defines_iff n).2 ⟨a, mem_computeFirstPass.2 ⟨f, hf, ha⟩, hn⟩
  · rw [skeleton, WalkEnv.skeleton_of_not_mem hf] at hn
    cases hn

theorem knows_env (p : Project) {pass : Pass} :
    Knows (p.env pass p.computeFirstPass) p.defines where
  own _ _ hn := defines_of_mem_skeleton hn
  sound n hn := (p.defines_iff n).2 (FirstPass.isSome_global?_iff.1 hn)
  soundRoot n hn := by
    obtain ⟨a, ha, hroot⟩ := FirstPass.isSome_rootGlobal?_iff.1 hn
    obtain ⟨f, hskeleton⟩ := skeleton_of_mem_computeFirstPass ha
    have hroot' : n ∈ (a.result.skeleton a.store).rootGlobals := hroot
    rw [hskeleton] at hroot'
    exact defines_of_mem_skeleton ((p.env .fileLocal {}).rootGlobals_subset hroot')
  complete _ n hn := FirstPass.isSome_global?_iff.2 ((p.defines_iff n).1 hn)

theorem knows_fileLocal (p : Project) : Knows (p.env .fileLocal {}) p.defines where
  own _ _ hn := defines_of_mem_skeleton hn
  sound _ hn := nomatch hn
  soundRoot _ hn := nomatch hn
  complete hp := absurd rfl hp

/-! ## The passes -/

def undefinedUses (p : Project) (f : FileId) : List (String × TextRange) :=
  (p.env .fileLocal {}).undefinedUses p.defines f

theorem filterKeys_undefined_analyse? (ha : p.analyse? f = some a) :
    (a.result.undefined.filterKeys fun n => !p.defines n) = noteUses {} (p.undefinedUses f) := by
  obtain ⟨-, w, hwalks, -⟩ := walks_of_analyse? ha
  exact (hwalks.undefines p.knows_fileLocal boundedTables_start).2.1

theorem undefines_walkFrom {entries : List FileId} (h : ∀ f ∈ entries, f ∈ p.files.ids)
    (hr : (p.walkFrom p.computeFirstPass entries).tables.files.get? f = some r) :
    Undefines (p.env .project p.computeFirstPass) p.defines f r := by
  have hbounded := (idle_start (p.env .project p.computeFirstPass) .project).forM_walkEntry
    (P := fun w => BoundedTables (p.env .project p.computeFirstPass) p.defines w.tables) rfl h
    (fun f _ w w' _ hw hv => hw.of_visits p.knows_env (by decide : Pass.project ≠ .fileLocal) hv)
    boundedTables_start
  exact hbounded.results f r hr

theorem undefines_walkAlone (hf : f ∈ p.files.ids)
    (hr : (walkAlone (p.env .scattered p.computeFirstPass) f (.start .scattered)).1 = some r) :
    Undefines (p.env .scattered p.computeFirstPass) p.defines f r := by
  obtain ⟨r', w, heq, hwalks⟩ :=
    (idle_start (p.env .scattered p.computeFirstPass) .scattered).walks hf
  rw [heq] at hr
  cases hr
  exact (hwalks.undefines p.knows_env boundedTables_start).2.2
    (by decide : Pass.scattered ≠ .fileLocal)

theorem keeps_undefinedDiagnostic (p : Project) {firstPass : FirstPass} {u : String × TextRange} :
    (p.env .project firstPass).keeps source (undefinedDiagnostic source.path u) =
      (p.env .scattered firstPass).keeps source (undefinedDiagnostic source.path u) := by
  have hreports : Pass.reports .project .undefinedGlobal p.realtime =
      Pass.reports .scattered .undefinedGlobal p.realtime := by
    cases p.realtime <;> decide
  exact congrArg (· && (((p.env .project firstPass).gate source).accepts _)) hreports

theorem diagnostics_eq (hsource : p.files.get? f = some source) {r' : FileResult}
    (hr : Undefines (p.env .project p.computeFirstPass) p.defines f r)
    (hr' : Undefines (p.env .scattered p.computeFirstPass) p.defines f r') :
    r.diagnostics.filter (·.kind == .undefinedGlobal) =
      r'.diagnostics.filter (·.kind == .undefinedGlobal) := by
  rw [hr.diagnostics source hsource, hr'.diagnostics source hsource]
  refine filter_congr fun d hd => ?_
  obtain ⟨u, -, rfl⟩ := mem_map.1 hd
  exact p.keeps_undefinedDiagnostic

theorem not_defines_of_reported {env : WalkEnv} (hsource : env.files.get? f = some source)
    (hr : Undefines env p.defines f r) {d : Diagnostic} (hd : d ∈ r.diagnostics)
    (hkind : d.kind = .undefinedGlobal) :
    ∃ n, d.message = s!"undefined global '{n}'" ∧ p.defines n = false := by
  have hmem : d ∈ r.diagnostics.filter (·.kind == .undefinedGlobal) :=
    mem_filter.2 ⟨hd, by simp [hkind]⟩
  rw [hr.diagnostics source hsource] at hmem
  obtain ⟨u, hu, rfl⟩ := mem_map.1 (mem_filter.1 hmem).1
  refine ⟨u.1, rfl, ?_⟩
  unfold WalkEnv.undefinedUses at hu
  split at hu
  · have hlost := (mem_filter.1 hu).2
    simp only [WalkEnv.isLost, Bool.and_eq_true, Bool.not_eq_true'] at hlost
    exact hlost.1.1
  · cases hu

theorem not_reported_of_walked {pass : Pass} {s : Store} (hf : f ∈ p.files.ids)
    (hproject : pass ≠ .project) (hscattered : pass ≠ .scattered) (h : p.Walked f pass s r) :
    ∀ d ∈ r.diagnostics, d.kind ≠ .undefinedGlobal := by
  have hreports : Pass.reports pass .undefinedGlobal p.realtime = false := by
    cases pass <;> simp_all [Pass.reports, Kind.passes]
  intro d hd hkind
  have hshown : Pass.reports pass .undefinedGlobal p.realtime = true := by
    cases h with
    | @fileLocal a h =>
      obtain ⟨-, w, hwalks, -⟩ := walks_of_analyse? h
      exact hwalks.reports hd hkind
    | project => exact absurd rfl hproject
    | later _ firstPass earlier h =>
      have hout : walkAlone (p.env pass firstPass) f
          ((earlier.forM fun g => discard (walkAlone (p.env pass firstPass) g)) (.start pass)).2 =
          (some r, _) := h
      obtain ⟨r', w, heq, hwalks⟩ := p.idle_earlier.walks hf
      cases hout.symm.trans heq
      exact hwalks.reports hd hkind
  rw [hreports] at hshown
  cases hshown

/-- A check of one file and every check from entry files that reaches it find the undefined names of
the first pass that no file defines, with the same places in the same order, and report the same
about them. Neither reports a name that some file defines, and the other passes report no undefined
names at all. -/
theorem undefined_eq_first_pass (hp : p.Reachable) {path : String} {f : FileId}
    (hf : p.files.idOf? path = some f) :
    ∃ a p' r, p.computeFirstPass.get? f = some a ∧ p.checkScattered path = .ok (p', r) ∧
      r.undefined = (a.result.undefined.filterKeys fun n => !p.defines n) ∧
      (∀ d ∈ r.diagnostics, d.kind = .undefinedGlobal →
        ∃ n, d.message = s!"undefined global '{n}'" ∧ p.defines n = false) ∧
      (∀ entries p'' walk r', p.check entries = .ok (p'', walk) →
        walk.tables.files.get? f = some r' →
        r'.undefined = (a.result.undefined.filterKeys fun n => !p.defines n) ∧
        r'.diagnostics.filter (·.kind == .undefinedGlobal) =
          r.diagnostics.filter (·.kind == .undefinedGlobal)) ∧
      ∀ pass s r', pass ≠ .project → pass ≠ .scattered → p.Walked f pass s r' →
        ∀ d ∈ r'.diagnostics, d.kind ≠ .undefinedGlobal := by
  have hmem := mem_ids_of_idOf? hf
  obtain ⟨source, hsource⟩ := (p.files.mem_ids_iff f).1 hmem
  obtain ⟨a, ha⟩ := p.exists_analyse? hmem
  obtain ⟨r, hscattered, hr⟩ := checkScattered_eq hp.fresh hf
  have hfirst := filterKeys_undefined_analyse? ha
  have hundefines := undefines_walkAlone hmem hr
  refine ⟨a, _, r, ?_, hscattered, ?_, fun d => not_defines_of_reported hsource hundefines, ?_,
    fun pass s r' => not_reported_of_walked hmem⟩
  · rw [get?_computeFirstPass, ha]
  · rw [hfirst]
    exact hundefines.undefined
  · intro entries p'' walk r' hcheck hr'
    obtain ⟨_, hcheck'⟩ := check_eq hp.fresh (registered_of_check hp.fresh hcheck)
    obtain ⟨-, rfl⟩ : _ ∧ walk = _ := Prod.ext_iff.1 (Except.ok.inj (hcheck.symm.trans hcheck'))
    have hundefines' := undefines_walkFrom (fun _ => mem_ids_of_mem_entryIds) hr'
    refine ⟨?_, diagnostics_eq hsource hundefines' hundefines⟩
    rw [hfirst]
    exact hundefines'.undefined

theorem undefined_eq_first_pass_pair : pair.Reachable ∧ pair.files.idOf? "b.lua" = some ⟨1⟩ ∧
    ∃ p' r, pair.checkScattered "b.lua" = .ok (p', r) ∧ r.undefined.keys = ["h"] := by
  have hid : pair.files.idOf? "b.lua" = some ⟨1⟩ := by decide +kernel
  have hfirst : (pair.computeFirstPass.get? ⟨1⟩).any fun a =>
      (a.result.undefined.filterKeys fun n => !pair.defines n).keys = ["h"] := by decide +kernel
  obtain ⟨a, p', r, ha, hcheck, hundefined, -⟩ := undefined_eq_first_pass reachable_pair hid
  refine ⟨reachable_pair, hid, p', r, hcheck, ?_⟩
  rw [ha] at hfirst
  rw [hundefined]
  simpa using hfirst

end Project

end LuaAnalysis
