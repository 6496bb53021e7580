import Mathlib.Logic.Relation
import LuaAnalysis.Proofs.Walk.Explore

/-!
# Marked references

A walk from entry files marks the loads of files on the stack. The stack is a path of loads, so such
a load closes a cycle; every other load is of a file whose result is known by then. Results are
listed in the order in which they come, so that a file whose references are all unmarked loads only
files that are listed before it (`Judged`). `Marks` keeps account of this for all files of a run,
and of who owns each mark.
-/

namespace LuaAnalysis

open List Relation

/-- Neither the settings nor a directive switches reports about the order of loads off. -/
structure WalkEnv.Unsilenced (env : WalkEnv) : Prop where
  suppression : ∀ path, env.suppression.isSuppressed path .loadOrder = false
  directives : ∀ f source, env.files.get? f = some source → ∀ line,
    source.source.directives.isDisabled line Kind.loadOrder.name Kind.loadOrder.code = false

variable {d : Diagnostic} {s : Store}

theorem Diagnostic.kind_of_isLoadCycle (h : d.isLoadCycle = true) : d.kind = .loadOrder := by
  simp only [isLoadCycle, Bool.and_eq_true, beq_iff_eq] at h
  exact h.1

variable {source : SourceFile} {free : ScopeId → Prop} {s' : Store} {r : FileResult}

theorem WalkEnv.Unsilenced.showsCycles {env : WalkEnv} (h : env.Unsilenced)
    (hp : env.pass = .project) {f : FileId} (hfile : env.files.get? f = some source) :
    (env.gate source).ShowsCycles := by
  intro d hd
  have hreports : Pass.reports .project .loadOrder env.realtime = true := by
    cases env.realtime <;> decide
  rw [Gate.admits, Gate.checks, Gate.accepts, Diagnostic.kind_of_isLoadCycle hd, WalkEnv.gate]
  dsimp only
  rw [hp, hreports, h.suppression, h.directives f source hfile]
  rfl

theorem Store.Extends.mem_marked_iff (h : Store.Extends free s s') {id : ReferenceId}
    (hid : id.index < s.references.size) : id ∈ s'.marked ↔ id ∈ s.marked := by
  rw [← Store.inProgress_iff_mem_marked, ← Store.inProgress_iff_mem_marked,
    part_eq (h.reference_core hid) Reference.inProgress]

namespace WalkM

variable {env : WalkEnv} {R : FileId → Prop} {f t : FileId} {l : LoadCall} {es : List Event}
  {w w₁ w' : Walk}

theorem reaches_of_mem_active {A : List FileId} (h : (f :: A).IsChain fun t f => env.Loads f t)
    (ht : t ∈ f :: A) : ReflTransGen env.Loads t f := by
  induction A generalizing f with
  | nil =>
    obtain rfl := mem_singleton.1 ht
    exact .refl
  | cons g A ih =>
    rw [isChain_cons_cons] at h
    rcases mem_cons.1 ht with rfl | ht
    · exact .refl
    · exact (ih h.2 ht).tail h.1

theorem Explored.reaches (h : Explored env R w) (hf : w.phase.active.head? = some f)
    (ht : t ∈ w.phase.active) : ReflTransGen env.Loads t f := by
  have hchain := h.chain
  obtain ⟨A, hA⟩ := head?_eq_some_iff.1 hf
  rw [hA] at hchain ht
  exact reaches_of_mem_active hchain ht

theorem LoadStep.mem_marked_iff (hs : LoadStep env l w w') :
    nextReference w ∈ w'.store.marked ↔ isCyclic env w l = true := by
  rw [← Store.inProgress_iff_mem_marked]
  have hcore := congrArg Reference.inProgress hs.reference
  exact ⟨fun h => hcore.symm.trans h, fun h => hcore.trans h⟩

theorem LoadStep.target_eq (hs : LoadStep env l w w') :
    (w'.store.referenceAt (nextReference w)).target = l.target? env := by
  have hcore := congrArg Reference.target hs.reference
  exact hcore

theorem Unvisited.isCyclic_eq (h : Unvisited env w t) (ht : l.target? env = some t) :
    isCyclic env w l = false := by
  rw [Bool.eq_false_iff]
  exact fun hc => h.inactive (active_of_isCyclic hc ht)

theorem marked_entering {chunk : Chunk} :
    (entering env f source chunk w).store.marked = w.store.marked :=
  (extends_entering env f source chunk w).marked_of_size_eq
    (congrArg Array.size (Store.references_addFunction w.store))

mutual

theorem Run.marked_eq {f : FileId} {es : List Event} {ms : List Mention} {w w' : Walk}
    (h : Run env f es ms w w') (hp : env.pass ≠ .project) (hu : env.firstPass.Unmarked) :
    w'.store.marked = w.store.marked := by
  match h with
  | .done _ _ => rfl
  | .quiet hm _ rest => exact (rest.marked_eq hp hu).trans (hm.quiet.marked hu)
  | .step hs _ rest => exact (rest.marked_eq hp hu).trans (hs.marked hu)
  | .stay (l := l) hs rest =>
    have hc : isCyclic env w l = false := by
      rw [Bool.eq_false_iff]
      intro hc
      simp only [isCyclic, Option.any_eq_true, closesCycle, Bool.and_eq_true, beq_iff_eq] at hc
      obtain ⟨-, -, ⟨hproject, -⟩, -⟩ := hc
      exact hp hproject
    rw [rest.marked_eq hp hu, hs.marked hu, hc, if_neg Bool.false_ne_true, append_nil]
  | .away _ hnew _ _ _ => exact absurd hnew.pass hp

theorem Walks.marked_eq {f : FileId} {r : FileResult} {w w' : Walk} (h : Walks env f w r w')
    (hp : env.pass ≠ .project) (hu : env.firstPass.Unmarked) :
    w'.store.marked = w.store.marked := by
  match h with
  | .broken _ _ => rfl
  | .read _ run => exact (run.marked_eq hp hu).trans marked_entering

end

/-! ## One file -/

/-- What is known of the references `ids` of the file `f` while the results of `before` are
known. -/
structure Judged (env : WalkEnv) (s : Store) (before : List FileId) (f : FileId)
    (ids : List ReferenceId) : Prop where
  lt : ∀ id ∈ ids, id.index < s.references.size
  marked : ∀ id ∈ ids, id ∈ s.marked → ∃ t, (s.referenceAt id).target = some t ∧
    ReflTransGen env.Loads t f
  unmarked : ∀ id ∈ ids, id ∉ s.marked → ∀ t, (s.referenceAt id).target = some t → t ∈ before

theorem Judged.nil (env : WalkEnv) (s : Store) (before : List FileId) (f : FileId) :
    Judged env s before f [] where
  lt _ h := nomatch h
  marked _ h := nomatch h
  unmarked _ h := nomatch h

theorem Judged.mono {before before' : List FileId} {ids : List ReferenceId}
    (h : Judged env s before f ids) (hs : Store.Extends free s s') (hb : before ⊆ before') :
    Judged env s' before' f ids := by
  have htarget : ∀ id ∈ ids, (s'.referenceAt id).target = (s.referenceAt id).target := fun id hid =>
    part_eq (hs.reference_core (h.lt id hid)) Reference.target
  refine
    { lt := fun id hid => Nat.lt_of_lt_of_le (h.lt id hid) hs.references.size_le
      marked := fun id hid hmark => ?_
      unmarked := fun id hid hmark t ht => ?_ }
  · rw [hs.mem_marked_iff (h.lt id hid)] at hmark
    rw [htarget id hid]
    exact h.marked id hid hmark
  · rw [hs.mem_marked_iff (h.lt id hid)] at hmark
    rw [htarget id hid] at ht
    exact hb (h.unmarked id hid hmark t ht)

structure Concluded (env : WalkEnv) (s : Store) (keys : List FileId) (f : FileId)
    (r : FileResult) : Prop where
  judged : ∃ before, before ++ [f] <+: keys ∧ Judged env s before f r.references
  reported : env.Unsilenced →
    ((∃ d ∈ r.diagnostics, d.isLoadCycle = true) ↔ ∃ id ∈ r.references, id ∈ s.marked)

theorem Concluded.mono {keys keys' : List FileId} (h : Concluded env s keys f r)
    (hs : Store.Extends free s s') (hk : keys <+: keys') : Concluded env s' keys' f r := by
  obtain ⟨before, hbefore, hjudged⟩ := h.judged
  refine ⟨⟨before, hbefore.trans hk, hjudged.mono hs (List.Subset.refl _)⟩, fun hu => ?_⟩
  rw [h.reported hu]
  refine exists_congr fun id => and_congr_right fun hid => ?_
  exact (hs.mem_marked_iff (hjudged.lt id hid)).symm

theorem concluded_brokenResult {e : SyntaxError} {before keys : List FileId}
    (hk : before ++ [f] <+: keys) : Concluded env s keys f (brokenResult env f source e) where
  judged := ⟨before, hk, .nil env s before f⟩
  reported _ := by
    constructor
    · rintro ⟨d, hd, hcycle⟩
      obtain rfl : d = source.syntaxDiagnostic e := mem_singleton.1 (mem_filter.1 hd).1
      cases Diagnostic.kind_of_isLoadCycle hcycle
    · rintro ⟨id, hid, -⟩
      cases hid

/-! ## All files -/

/-- The account of the marks of files whose results are known. The marks in `base` belong to files
that are still being walked. -/
structure Settled (env : WalkEnv) (base : ReferenceId → Prop) (w : Walk) : Prop where
  results : ∀ g r, w.tables.files.get? g = some r → Concluded env w.store w.tables.files.keys g r
  owned : ∀ id ∈ w.store.marked, base id ∨ ∃ g r, w.tables.files.get? g = some r ∧ id ∈ r.references

/-- The account of marks in a state inside the file `f`. -/
structure Marks (env : WalkEnv) (base : ReferenceId → Prop) (f : FileId) (w : Walk) : Prop
    extends Settled env (fun id => base id ∨ id ∈ w.frame.references) w where
  current : Judged env w.store w.tables.files.keys f w.frame.references
  shows : env.Unsilenced → w.frame.gate.ShowsCycles
  cycles : env.Unsilenced → (w.course.cycles = [] ↔ ∀ id ∈ w.frame.references, id ∉ w.store.marked)

variable {base : ReferenceId → Prop}

namespace Settled

theorem start {pass : Pass} : Settled env base (.start pass) where
  results _ _ h := nomatch h
  owned _ h := nomatch h

theorem of_same (h : Settled env base w) (hs : Store.Extends free w.store w'.store)
    (hm : w'.store.marked = w.store.marked) (hfiles : w'.tables.files = w.tables.files) :
    Settled env base w' := by
  refine ⟨fun g r hg => ?_, ?_⟩
  · rw [hfiles] at hg ⊢
    exact (h.results g r hg).mono hs prefix_rfl
  · rw [hm, hfiles]
    exact h.owned

theorem enlist (h : Settled env (fun id => base id ∨ id ∈ r.references) w)
    (hlist : Enlists t r w w') (hfresh : t ∉ w.tables.files.keys)
    (hdone : Concluded env w.store (w.tables.files.keys ++ [t]) t r) :
    Settled env base w' := by
  refine ⟨?_, fun id hid => ?_⟩
  · rw [hlist.keys hfresh, hlist.files]
    exact OrderedMap.forall_get?_insert
      (fun g r' hg => (h.results g r' hg).mono hlist.store (prefix_append _ _))
      (hdone.mono hlist.store prefix_rfl)
  · rw [hlist.marked] at hid
    rw [hlist.files]
    rcases h.owned id hid with (hid | hid) | ⟨g, r', hg, hid⟩
    · exact .inl hid
    · exact .inr ⟨t, r, by rw [OrderedMap.get?_insert, if_pos rfl], hid⟩
    · exact .inr ⟨g, r', OrderedMap.get?_insert_of_get? hfresh hg, hid⟩

end Settled

namespace Marks

theorem of_same (h : Marks env base f w) (hs : Store.Extends free w.store w'.store)
    (hm : w'.store.marked = w.store.marked) (hc : w'.course = w.course) : Marks env base f w' := by
  have hfiles : w'.tables.files = w.tables.files := congrArg Course.files hc
  have hrefs : w'.frame.references = w.frame.references := congrArg Course.references hc
  have hsettled := h.toSettled.of_same hs hm hfiles
  rw [← hrefs] at hsettled
  have hgate : w'.frame.gate = w.frame.gate := congrArg Course.gate hc
  refine ⟨hsettled, ?_, hgate ▸ h.shows, ?_⟩
  · rw [hfiles, hrefs]
    exact h.current.mono hs (List.Subset.refl _)
  · rw [hc, hrefs, hm]
    exact h.cycles

theorem load (h : Marks env base f w) (hs : LoadStep env l w w')
    (hkeys : w.tables.files.keys <+: w'.tables.files.keys)
    (hcyclic : isCyclic env w l = true → ∃ t, l.target? env = some t ∧ ReflTransGen env.Loads t f)
    (hknown : isCyclic env w l = false → ∀ t, l.target? env = some t → t ∈ w'.tables.files.keys)
    (hsettled : Settled env (fun id => base id ∨ id ∈ w'.frame.references) w') :
    Marks env base f w' := by
  have hold := h.current.mono hs.store hkeys.subset
  have hsplit : ∀ id ∈ w'.frame.references, id ∈ w.frame.references ∨ id = nextReference w := by
    intro id hid
    rw [hs.references, mem_append, mem_singleton] at hid
    exact hid
  refine ⟨hsettled, ⟨?_, ?_, ?_⟩, part_eq hs.place Frame.gate ▸ h.shows, fun hu => ?_⟩
  · intro id hid
    rcases hsplit id hid with hid | rfl
    · exact hold.lt id hid
    · exact hs.size_lt
  · intro id hid hmark
    rcases hsplit id hid with hid | rfl
    · exact hold.marked id hid hmark
    · rw [hs.target_eq]
      exact hcyclic (hs.mem_marked_iff.1 hmark)
  · intro id hid hmark t ht
    rcases hsplit id hid with hid | rfl
    · exact hold.unmarked id hid hmark t ht
    · rw [hs.mem_marked_iff, Bool.not_eq_true] at hmark
      rw [hs.target_eq] at ht
      exact hknown hmark t ht
  · have hmarks : (∀ id ∈ w.frame.references, id ∉ w'.store.marked) ↔
      ∀ id ∈ w.frame.references, id ∉ w.store.marked :=
      forall₂_congr fun id hid => not_congr (hs.store.mem_marked_iff (h.current.lt id hid))
    rw [hs.cycles (h.shows hu), h.cycles hu, hs.references, ← hmarks, forall_mem_append,
      forall_mem_singleton, hs.mem_marked_iff, Bool.not_eq_true]

theorem stay (h : Marks env base f w) (hu : env.firstPass.Unmarked) (hx : Search env R f es w)
    (hs : Stays env l w w') : Marks env base f w' := by
  refine h.load hs.step (hs.tables ▸ prefix_rfl) (fun hc => ?_) (fun hc t ht => ?_)
    ⟨fun g r hg => ?_, fun id hid => ?_⟩
  · obtain ⟨t, ht⟩ : ∃ t, l.target? env = some t := by
      simp only [isCyclic, Option.any_eq_true] at hc
      obtain ⟨t, ht, -⟩ := hc
      exact ⟨t, ht⟩
    exact ⟨t, ht, hx.reaches hx.head (active_of_isCyclic hc ht)⟩
  · rw [hs.tables]
    refine (hx.known hs ht).resolve_left fun hc' => ?_
    rw [hc] at hc'
    cases hc'
  · rw [hs.tables] at hg ⊢
    exact (h.results g r hg).mono hs.step.store prefix_rfl
  · rw [hs.marked hu, mem_append] at hid
    rw [hs.tables, hs.step.references, mem_append]
    rcases hid with hid | hid
    · exact (h.owned id hid).imp_left fun h => h.imp_right .inl
    · split at hid
      · exact .inl (.inr (.inr hid))
      · cases hid

theorem entering {chunk : Chunk} (h : Settled env base w) (hp : env.pass = .project)
    (hfile : env.files.get? f = some source) :
    Marks env base f (entering env f source chunk w) := by
  have hext := extends_entering env f source chunk w
  refine ⟨⟨fun g r hg => (h.results g r hg).mono hext prefix_rfl, ?_⟩, .nil ..,
    fun hu => hu.showsCycles hp hfile, fun _ => ?_⟩
  · rw [marked_entering]
    exact fun id hid => (h.owned id hid).imp_left .inl
  · exact ⟨fun _ _ h => (nomatch h), fun _ => rfl⟩

theorem concluded {main : FunctionId} (h : Marks env base t w₁) :
    Concluded env w₁.store (w₁.tables.files.keys ++ [t]) t (treeResult t source main w₁) := by
  refine ⟨⟨_, prefix_rfl, h.current⟩, fun hu => ?_⟩
  have hcycles : (∃ d ∈ (treeResult t source main w₁).diagnostics, d.isLoadCycle = true) ↔
      w₁.course.cycles ≠ [] := by
    rw [ne_eq, eq_nil_iff_forall_not_mem, not_forall_not]
    exact exists_congr fun d => mem_filter.symm
  rw [hcycles, ne_eq, h.cycles hu]
  simp only [not_forall, not_not, exists_prop]
  rfl

end Marks

mutual

theorem Run.marks {f : FileId} {es : List Event} {ms : List Mention} {w w' : Walk}
    {base : ReferenceId → Prop} (h : Run env f es ms w w') (hu : env.firstPass.Unmarked)
    (hx : Search env R f es w) (hm : Marks env base f w) : Marks env base f w' := by
  match h with
  | .done _ _ => exact hm
  | .quiet hq _ rest =>
    exact rest.marks hu (hx.quiet hq)
      (hm.of_same hq.quiet.store.toExtends (hq.quiet.marked hu) hq.quiet.course)
  | .step hs _ rest =>
    exact rest.marks hu (hx.step hs) (hm.of_same hs.store.toExtends (hs.marked hu) hs.course)
  | .stay hs rest => exact rest.marks hu (hx.stay hs) (hm.stay hu hx hs)
  | @Run.away _ _ t l _ _ r site _ w₁ w₂ _ ht hnew inner hr rest =>
    have happroach := hx.approach ht hnew site
    have hdone := inner.explores happroach hr.toEnlists hr.step.active
    -- The marks of this file are kept for it while the other file is walked.
    have hstart :=
      hm.toSettled.of_same (extends_suspended env l w site).toExtends marked_recorded rfl
    obtain ⟨hconcluded, hend⟩ := inner.marks hu happroach hstart
    have hsettled := hend.enlist hr.toEnlists hdone.fresh hconcluded
    refine rest.marks hu (hx.next hdone.explored hr.step.store hr.step.active hx.belongs.tail) ?_
    refine hm.load hr.step hdone.subset (fun hc => ?_) (fun _ u hu => ?_)
      ⟨hsettled.results, fun id hid => ?_⟩
    · rw [hnew.isCyclic_eq ht] at hc
      cases hc
    · cases ht.symm.trans hu
      exact hdone.mem
    · rw [hr.step.references, mem_append]
      exact (hsettled.owned id hid).imp_left fun h => h.imp_right .inl

theorem Walks.marks {t : FileId} {r : FileResult} {w w' : Walk} {base : ReferenceId → Prop}
    (h : Walks env t w r w') (hu : env.firstPass.Unmarked) (hx : Approach env R t w)
    (hs : Settled env base w) :
    Concluded env w'.store (w'.tables.files.keys ++ [t]) t r ∧
    Settled env (fun id => base id ∨ id ∈ r.references) w' := by
  match h with
  | .broken _ _ =>
    exact ⟨concluded_brokenResult prefix_rfl, hs.results,
      fun id hid => (hs.owned id hid).imp_left .inl⟩
  | .read hread run =>
    have hend := run.marks hu (hx.search hread) (.entering hs hx.pass hread.file)
    exact ⟨hend.concluded, hend.results, hend.owned⟩

end

theorem Settled.of_visits (h : Settled env base w) (hidle : Idle env w) (hx : Explored env R w)
    (hu : env.firstPass.Unmarked) (hp : env.pass = .project) (hR : ∀ g u, R g → env.Loads g u → R u)
    (hRf : R f) (hv : Visits env f w w') : Settled env base w' := by
  cases hv with
  | again => exact h
  | @first r w₁ hnew hwalks =>
    have happroach := hx.approach hidle hp hR hRf hnew
    have hlist := enlists_walked f r w₁
    have hdone := hwalks.explores happroach hlist hwalks.comesBack.active
    obtain ⟨hconcluded, hend⟩ := hwalks.marks hu happroach h
    exact hend.enlist hlist hdone.fresh hconcluded

end WalkM

end LuaAnalysis
