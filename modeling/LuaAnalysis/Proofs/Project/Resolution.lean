import LuaAnalysis.Proofs.Project.History
import LuaAnalysis.Proofs.Resolution.Visit

/-!
# Every pass resolves names lexically

Whatever a pass knows about other files, the names that it announces for a file are the mentions of
the file, in order: what the text binds to a local is announced with the place of that local, and
what it leaves free is never announced as a local.
-/

namespace LuaAnalysis

open List WalkM

variable {f : FileId}

namespace WalkM

variable {env : WalkEnv} {w : Walk}

/-- Nothing has been listed yet, so all that is known comes from the first pass. -/
theorem grounded_start (hfirst : ∀ a ∈ env.firstPass.analyses,
      env.files.AreGlobals a.store a.result.globals ∧
      env.files.AreGlobals a.store a.result.rootGlobals)
    (hdistinct : ∀ a ∈ env.firstPass.analyses, ∀ b ∈ env.firstPass.analyses,
      a.result.file = b.result.file → a = b) {pass : Pass} : Grounded env (.start pass) where
  first := hfirst
  copies := ⟨hdistinct, fun _ _ _ _ h => nomatch h⟩
  globals := .empty
  rootGlobals := .empty
  sharedGlobals := .empty
  sharedRootGlobals := .empty
  unshared _ := rfl

theorem owed_start (hp : env.pass = .project) {pass : Pass} : owed env (.start pass) w f =
      (List.replicate (if f ∈ w.tables.files.keys then 1 else 0)
        (env.files.mentions f)).flatten := by
  have hnone : f ∉ (Walk.start pass).tables.files.keys := not_mem_nil
  unfold owed
  by_cases hf : f ∈ w.tables.files.keys
  · simp [hp, hnone, hf]
  · simp [hf]

/-! ## Walks one after another -/

theorem Idle.paid_walkEntry (h : Idle env w) (hp : env.pass = .project) (hg : Grounded env w) :
    Grounded env (WalkM.walkEntry env f w).2 ∧ Paid env w (WalkM.walkEntry env f w).2 := by
  by_cases hf : f ∈ env.files.ids
  · rcases h.walkEntry_cases hp hf with ⟨-, hw⟩ | ⟨hnew, r, w₁, halone, -, hw⟩
    · rw [hw]
      exact ⟨hg, .refl env w⟩
    · have hannounced := h.announced_walkAlone hg f
      rw [halone] at hannounced
      rw [hw]
      exact ⟨hannounced.1.of_eq rfl rfl rfl rfl, hannounced.2.paid hp hnew rfl rfl⟩
  · rw [walkEntry_of_not_mem hf]
    exact ⟨hg, .refl env w⟩

theorem Idle.paid_forM_walkEntry (h : Idle env w) (hp : env.pass = .project) (hg : Grounded env w)
    {entries : List FileId} : Paid env w (entries.forM (WalkM.walkEntry env) w).2 := by
  induction entries generalizing w with
  | nil => exact .refl env w
  | cons f entries ih =>
    rw [forM_cons_apply]
    obtain ⟨hg₁, hpaid⟩ := h.paid_walkEntry hp hg
    exact hpaid.trans (ih (h.walkEntry hp f) hg₁)

/-- The names of a file that resolve, with what they resolve to. -/
def resolvedIn (env : WalkEnv) (f : FileId) : List (TextRange × DeclKey) :=
  Ledger.resolved env.abroad f {} (env.files.events env.config.imports f)

theorem Idle.announced_forM_walkAlone (h : Idle env w) (hp : env.pass ≠ .project)
    (hg : Grounded env w) (files : List FileId) :
    ∃ os, ((files.forM fun f => discard (WalkM.walkAlone env f)) w).2.occurrences.toList =
      w.occurrences.toList ++ os ∧
      (∀ o ∈ os, o.file ∈ files) ∧
      ∀ f, List.Forall₂ (env.files.Reports f)
        (List.replicate (files.count f) (env.files.mentions f)).flatten
          (os.filter (·.file = f)) ∧
          (env.OneByOne → (os.filter (·.file = f)).filterMap Occurrence.free? =
          (List.replicate (files.count f) (resolvedIn env f)).flatten) := by
  induction files generalizing w with
  | nil =>
    exact ⟨[], (append_nil _).symm, fun _ ho => absurd ho not_mem_nil, fun _ =>
      ⟨.nil, fun _ => rfl⟩⟩
  | cons g files ih =>
    rw [forM_cons_apply]
    obtain ⟨hgrounded, hannounced⟩ := h.announced_walkAlone hg g
    obtain ⟨os, hos, hnames, hfree⟩ := hannounced.names
    obtain ⟨os', hos', hfiles', hrest⟩ := ih (h.walkAlone g) hgrounded
    have hnone : ∀ f ≠ g, os.filter (·.file = f) = [] := by
      intro f hf
      have hother := hnames f
      have howed : owed env w (WalkM.walkAlone env g w).2 f = [] := if_neg fun hx => hp hx.1
      rw [if_neg hf, howed] at hother
      exact forall₂_nil_left_iff.1 hother
    have hfile : ∀ o ∈ os, o.file = g := by
      intro o ho
      by_contra hne
      exact filter_eq_nil_iff.1 (hnone o.file hne) o ho (by simp)
    refine ⟨os ++ os', ?_, ?_, fun f => ?_⟩
    · rw [← append_assoc, ← hos]
      exact hos'
    · refine forall_mem_append.2 ⟨fun o ho => ?_, fun o ho => .tail _ (hfiles' o ho)⟩
      rw [hfile o ho]
      exact .head _
    · obtain ⟨hnames', hfree'⟩ := hrest f
      rw [filter_append]
      by_cases hgf : f = g
      · subst hgf
        have hself := hnames f
        have hall : os.filter (·.file = f) = os :=
          filter_eq_self.2 fun o ho => by simpa using hfile o ho
        rw [if_pos rfl] at hself
        rw [count_cons_self, replicate_succ, flatten_cons, replicate_succ, flatten_cons]
        refine ⟨rel_append hself hnames', fun ho => ?_⟩
        rw [filterMap_append, hfree' ho, hall, hfree ho]
        rfl
      · rw [count_cons_of_ne (Ne.symm hgf), hnone f hgf]
        exact ⟨hnames', hfree'⟩

end WalkM

namespace Project

theorem grounded_fileLocal (p : Project) : Grounded (p.env .fileLocal {}) (.start .fileLocal) :=
  grounded_start (fun _ h => absurd h not_mem_nil) (fun _ h => absurd h not_mem_nil)

theorem tallied_of_analyse? {p : Project} {a : FileAnalysis} (h : p.analyse? f = some a) :
    (p.files.AreGlobals a.store a.result.globals ∧
      p.files.AreGlobals a.store a.result.rootGlobals) ∧
      { globals := a.store.keysOf a.result.globals, roots := a.store.keysOf a.result.rootGlobals } =
        Ledger.alone f (p.files.events p.config.imports f) := by
  obtain ⟨-, w, hwalks, hstore⟩ := walks_of_analyse? h
  have hacc := hwalks.accounted Store.wellFormed_empty p.grounded_fileLocal
  rw [hstore]
  exact ⟨⟨hacc.globals, hacc.rootGlobals⟩, hacc.ledger ⟨Pass.noConfusion, fun _ => rfl⟩⟩

def firstPassFor (p : Project) : Pass → FirstPass
  | .fileLocal => {}
  | .project | .scattered | .referenceSearch | .coloring => p.computeFirstPass

theorem grounded_firstPassFor (p : Project) (pass : Pass) :
    Grounded (p.env pass (p.firstPassFor pass)) (.start pass) := by
  have hlater : Grounded (p.env pass p.computeFirstPass) (.start pass) := by
    refine grounded_start (fun a ha => ?_) (fun a ha b hb heq => ?_)
    · obtain ⟨f, -, hf⟩ := mem_computeFirstPass.1 ha
      exact (tallied_of_analyse? hf).1
    · obtain ⟨f, -, hf⟩ := mem_computeFirstPass.1 ha
      obtain ⟨g, -, hg⟩ := mem_computeFirstPass.1 hb
      obtain rfl : f = g := by rw [← file_of_analyse? hf, ← file_of_analyse? hg, heq]
      exact Option.some.inj (hf.symm.trans hg)
  cases pass with
  | fileLocal => exact p.grounded_fileLocal
  | _ => exact hlater

/-- All names that a run announces. -/
def announced (p : Project) (pass : Pass) (files : List FileId) : List Occurrence :=
  if pass = .project then
    ((files.forM (walkEntry (p.env .project p.computeFirstPass)))
      (.start .project)).2.occurrences.toList
  else p.occurrences pass (p.firstPassFor pass) files

/-- How often a run walks a file. -/
def timesWalked (p : Project) (pass : Pass) (files : List FileId) (f : FileId) : Nat :=
  if pass = .project then
    if f ∈ (p.walkFrom p.computeFirstPass files).tables.files.keys then 1 else 0
  else files.count f

/-- In every pass, the names announced for a file report, one by one, the names that its text
mentions: each that the text binds to a local declaration with the place of that declaration, and
each that it leaves free as no local. -/
theorem announced_reports_mentions (p : Project) (pass : Pass) (files : List FileId) (f : FileId) :
    List.Forall₂ (p.files.Reports f)
      (List.replicate (p.timesWalked pass files f) (p.files.mentions f)).flatten
      ((p.announced pass files).filter (·.file = f)) := by
  have hstart := p.grounded_firstPassFor pass
  unfold announced timesWalked
  by_cases hp : pass = .project
  · subst hp
    rw [if_pos rfl, if_pos rfl]
    obtain ⟨os, hos, hnames⟩ := ((idle_start _ .project).paid_forM_walkEntry rfl hstart).names
    have hall : ((files.forM (walkEntry (p.env .project p.computeFirstPass)))
      (.start .project)).2.occurrences.toList =
        os := hos
    have hf := hnames f
    rw [owed_start rfl] at hf
    rw [hall]
    exact hf
  · rw [if_neg hp, if_neg hp]
    have hidle := idle_start (p.env pass (p.firstPassFor pass)) pass
    obtain ⟨os, hos, -, hnames⟩ := hidle.announced_forM_walkAlone hp hstart files
    have hall : p.occurrences pass (p.firstPassFor pass) files = os := hos
    rw [hall]
    exact (hnames f).1

-- The columns at which `x` stands, each with that of the local that it is bound to.
example : (((ofConfig {}).addFile "a.lua"
    "local x = x repeat local x = x until x for x = x, 2 do x = x end").1.files.mentions ⟨0⟩).map
      (fun u => (u.range.start.column, u.binding.map (·.range.start.column))) =
    [(10, none), (6, some 6), (29, some 6), (25, some 25), (37, some 25), (47, some 6),
      (43, some 43), (59, some 43),
      (55, some 43)] := by
  decide +kernel

end Project

end LuaAnalysis
