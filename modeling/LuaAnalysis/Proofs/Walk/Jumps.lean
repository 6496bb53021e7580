import LuaAnalysis.Proofs.Walk.File
import Mathlib.Data.List.Forall2

/-!
# Jumps

A `goto` sees the labels that stand directly in the blocks around it, up to the body of its
function. A walk keeps the jumps of a function until the function ends, with the scopes that they
and the labels stand in, and then reports those that see no label of their name.
-/

namespace LuaAnalysis

open List Store

variable {f : Function} {g : PendingGoto} 

namespace Function

def HasLabel (f : Function) (name : String) (scope : ScopeId) : Prop :=
  ∃ l ∈ (f.labels.get? name).getD [], l.scope = scope

/-- The labels and the jumps that have been met in the function. -/
def marks (f : Function) : OrderedMap String (List Label) × List PendingGoto :=
  (f.labels, f.pendingGotos)

variable {g : Function} {name : String} {scope : ScopeId}

theorem hasLabel_of_marks (h : f.marks = g.marks) :
    f.HasLabel name scope ↔ g.HasLabel name scope := by
  have hlabels : f.labels = g.labels := congrArg Prod.fst h
  rw [HasLabel, hlabels, HasLabel]

theorem not_hasLabel (h : f.marks = ({}, [])) : ¬ f.HasLabel name scope := by
  have hlabels : f.labels = {} := congrArg Prod.fst h
  rintro ⟨l, hl, -⟩
  rw [hlabels] at hl
  cases hl

end Function

namespace WalkM

variable {env : WalkEnv} {enter : Enter} {o : Outline} {seen ls ls' : List String}
  {js js' : List String → List Jump}
  {lost lost' : List Name} {w w' w'' : Walk} {final : String → ScopeId → Prop} {s : Store}

theorem isVisibleLabel_iff :
    isVisibleLabel s f g = true ↔ ∃ scope ∈ s.ancestors g.scope, f.HasLabel g.label scope := by
  simp only [isVisibleLabel, any_eq_true, isDescendantOf, contains_iff_mem, Function.HasLabel]
  constructor
  · rintro ⟨l, hl, hin⟩
    exact ⟨l.scope, hin, l, hl, rfl⟩
  · rintro ⟨_, hin, l, hl, rfl⟩
    exact ⟨l, hl, hin⟩

/-! ## Findings -/

variable {scope : ScopeId} {n : Name}

theorem jumpFindings_withFindings {ds : List Diagnostic} : (withFindings ds w).jumpFindings =
    w.jumpFindings ++ (ds.filter (·.kind == .unknownGotoLabel)).filter w.frame.gate.admits :=
  filter_findings

theorem jumpFindings_finishFunction {id : FunctionId} : (finishFunction id w).2.jumpFindings =
    w.jumpFindings ++ (lostGotos w id).filter w.frame.gate.admits := by
  have hlost : (lostGotos w id).filter (·.kind == .unknownGotoLabel) = lostGotos w id := by
    rw [filter_eq_self]
    intro d hd
    obtain ⟨g, -, rfl⟩ := mem_map.1 hd
    rfl
  have hunused : ∀ scope, (unusedIn w scope).filter (·.kind == .unknownGotoLabel) = [] := by
    intro scope
    rw [filter_eq_nil_iff]
    intro d hd
    rcases kind_unusedIn d hd with h | h <;> simp [h]
  rw [finishFunction_apply, jumpFindings_withFindings, filter_append, hlost, hunused, append_nil]
  rfl

/-! ## Steps -/

def current (w : Walk) : Function :=
  w.store.functionAt w.frame.function

/-- The labels of the current function stand in scopes of the store. -/
def Labelled (w : Walk) : Prop :=
  ∀ name scope, (current w).HasLabel name scope → scope.index < w.store.scopes.size

/-- Which labels the scopes have when the current function ends, in a store `s`: `seen` are those of
a scope and the scopes around it, and the other scopes get no more labels. -/
structure Concludes (seen : List String) (final : String → ScopeId → Prop) (s : Store) (w : Walk)
    (inner : ScopeId) : Prop where
  store : Store.Extends (fun _ => True) w.store s
  seen : ∀ name, name ∈ seen ↔ ∃ scope ∈ w.store.ancestors inner, final name scope
  others : ∀ name (scope : ScopeId), scope.index < w.store.scopes.size →
    scope ∉ w.store.ancestors inner →
    (final name scope ↔ (current w).HasLabel name scope)

/-- A jump as it has been recorded: when the function ends, the labels around it are those that it
sees. -/
structure Recorded (final : String → ScopeId → Prop) (s : Store) (g : PendingGoto)
    (j : Jump) : Prop where
  label : g.label = j.label.text
  range : g.range = j.label.range
  seen : (∃ scope ∈ s.ancestors g.scope, final j.label.text scope) ↔ j.label.text ∈ j.seen

/-- The findings about lost jumps that the frame lets through. -/
def lostFindings (f : Frame) (lost : List Name) : List Diagnostic :=
  (lost.map fun n => gotoDiagnostic f.path n.text n.range).filter f.gate.admits

theorem lostFindings_append (f : Frame) :
    lostFindings f (lost ++ lost') = lostFindings f lost ++ lostFindings f lost' := by
  rw [lostFindings, map_append, filter_append, lostFindings, lostFindings]

theorem lostFindings_of_spot {f f' : Frame} (h : f'.spot = f.spot) :
    lostFindings f' lost = lostFindings f lost := by
  rw [lostFindings, lostFindings, part_eq h Frame.path, part_eq h Frame.gate]

/-- What happens to the labels and jumps of the current function between two states, and which jumps
of functions inside it turn out to be lost. -/
structure Jumped (ls : List String) (js : List String → List Jump) (lost : List Name)
    (w w' : Walk) : Prop
    extends Kept w w' where
  labelled : Labelled w'
  labels : ∀ name (scope : ScopeId), scope.index < w.store.scopes.size →
    ((current w').HasLabel name scope ↔ (current w).HasLabel name scope ∨ scope = w.frame.scope ∧
      name ∈ ls)
  gotos : ∀ seen final s, Concludes seen final s w' w.frame.scope →
    ∃ new, (current w').pendingGotos = (current w).pendingGotos ++ new ∧
    List.Forall₂ (Recorded final s) new (js seen)
  found : w'.jumpFindings = w.jumpFindings ++ lostFindings w.frame lost

theorem mem_ancestors_self (s : Store) (scope : ScopeId) : scope ∈ s.ancestors scope := by
  rw [ancestors]
  exact mem_cons_self

theorem current_modify (hw : Ready w) {f : Function → Function} :
    current { w with store := w.store.modifyFunction w.frame.function f } = f (current w) := by
  have h := functionAt_modifyFunction w.store w.frame.function w.frame.function f
  rwa [if_pos ⟨rfl, hw.function_lt⟩] at h

theorem Plain.marks_eq (h : Plain w w') (hlt : w.frame.function.index < w.store.functions.size) :
    (current w').marks = (current w).marks := by
  rw [current, part_eq h.spot Frame.function]
  exact part_eq (h.functions.core_eq _ hlt) Function.marks

theorem hasLabel_addLabel (hw : Ready w) {name : String} :
    (current (addLabel n w).2).HasLabel name scope ↔
      (current w).HasLabel name scope ∨ scope = w.frame.scope ∧ name = n.text := by
  have hcurrent : (current (addLabel n w).2).labels = _ :=
    congrArg Function.labels (current_modify hw)
  simp only [Function.HasLabel, hcurrent, OrderedMap.alter, OrderedMap.get?_insert]
  by_cases hname : n.text = name
  · subst hname
    simp [or_and_right, exists_or, eq_comm]
  · simp [hname, Ne.symm hname]

namespace Jumped

theorem of_same (hk : Kept w w') (hl : Labelled w) (hmarks : (current w').marks = (current w).marks)
    (hfound : w'.jumpFindings = w.jumpFindings ++ lostFindings w.frame lost) :
    Jumped [] (fun _ => []) lost w w' where
  toKept := hk
  labelled name scope h :=
    Nat.lt_of_lt_of_le (hl name scope ((Function.hasLabel_of_marks hmarks).1 h))
    hk.store.scopes.size_le
  labels name scope _ := by simp [Function.hasLabel_of_marks hmarks]
  gotos _ _ _ _ := ⟨[], (congrArg Prod.snd hmarks).trans (append_nil _).symm, .nil⟩
  found := hfound

theorem of_plain (hw : Ready w) (hl : Labelled w) (h : Plain w w') :
    Jumped [] (fun _ => []) [] w w' :=
  .of_same (.of_plain h) hl (h.marks_eq hw.function_lt) (h.jumpFindings.trans (append_nil _).symm)

theorem scope_lt (hw : Ready w) (h : Jumped ls js lost w w') :
    w'.frame.scope.index < w'.store.scopes.size := by
  rw [part_eq h.spot Frame.scope]
  exact h.store.scope_lt hw.scope_lt

theorem concludes (hw : w.frame.scope.index < w.store.scopes.size) (h : Jumped ls js lost w w')
    (hc : Concludes seen final s w' w.frame.scope) : Concludes seen final s w w.frame.scope := by
  obtain ⟨hstore, hseen, hothers⟩ := hc
  rw [h.store.ancestors_eq hw] at hseen hothers
  refine ⟨h.store.trans hstore, hseen, fun name scope hlt hout => ?_⟩
  rw [hothers name scope (h.store.scope_lt hlt) hout, h.labels name scope hlt]
  refine or_iff_left fun hnew => hout ?_
  rw [hnew.1]
  exact mem_ancestors_self _ _

theorem trans (hw : Ready w) (h : Jumped ls js lost w w') (h' : Jumped ls' js' lost' w' w'') :
    Jumped (ls ++ ls') (fun seen => js seen ++ js' seen) (lost ++ lost') w w'' where
  toKept := h.toKept.trans h'.toKept
  labelled := h'.labelled
  labels name scope hlt := by
    rw [h'.labels name scope (h.store.scope_lt hlt), h.labels name scope hlt,
      part_eq h.spot Frame.scope, or_assoc, ← and_or_left, mem_append]
  gotos seen final s hc := by
    have hscope := part_eq h.spot Frame.scope
    rw [← hscope] at hc
    obtain ⟨new, hnew, hrec⟩ := h.gotos seen final s (hscope ▸ h'.concludes (h.scope_lt hw) hc)
    obtain ⟨new', hnew', hrec'⟩ := h'.gotos seen final s hc
    exact ⟨new ++ new', by rw [hnew', hnew, append_assoc], rel_append hrec hrec'⟩
  found := by
    rw [h'.found, h.found, lostFindings_of_spot h.spot, lostFindings_append, append_assoc]

end Jumped

theorem jumped_addGoto (hw : Ready w) (hl : Labelled w) {label : Name} :
    Jumped [] (fun seen => [⟨label, seen⟩]) [] w (addGoto label w).2 := by
  have hcurrent : current (addGoto label w).2 = _ := current_modify hw
  have hlabels : ∀ name scope, (current (addGoto label w).2).HasLabel name scope ↔
      (current w).HasLabel name scope := by
    intro name scope
    rw [hcurrent]
    rfl
  have hkept : Kept w (addGoto label w).2 := .modify (by exact fun _ => rfl)
  refine
    { toKept := hkept
      labelled := fun name scope h => hl name scope ((hlabels name scope).1 h)
      labels := fun name scope _ => by simp [hlabels]
      gotos := fun seen final s hc =>
        ⟨_, congrArg Function.pendingGotos hcurrent, .cons ⟨rfl, rfl, ?_⟩ .nil⟩
      found := (append_nil _).symm }
  have hsame : s.ancestors w.frame.scope = _ :=
    hc.store.ancestors_eq (hkept.store.scope_lt hw.scope_lt)
  dsimp only
  rw [hsame]
  exact (hc.seen label.text).symm

theorem jumped_addLabel (hw : Ready w) (hl : Labelled w) :
    Jumped [n.text] (fun _ => []) [] w (addLabel n w).2 where
  toKept := .modify (by exact fun _ => rfl)
  labelled name scope h := by
    rcases (hasLabel_addLabel hw).1 h with h | ⟨rfl, -⟩
    · exact hl name scope h
    · exact hw.scope_lt
  labels name scope _ := by rw [hasLabel_addLabel hw, mem_singleton]
  gotos _ _ _ _ :=
    ⟨[], (congrArg Function.pendingGotos (current_modify hw)).trans (append_nil _).symm, .nil⟩
  found := (append_nil _).symm

/-! ## Blocks -/

theorem Concludes.of_plain {inner : ScopeId} (hc : Concludes seen final s w' inner) (h : Plain w w')
    (hlt : w.frame.function.index < w.store.functions.size)
    (hin : inner.index < w.store.scopes.size) : Concludes seen final s w inner := by
  obtain ⟨hstore, hseen, hothers⟩ := hc
  rw [h.store.ancestors_eq hin] at hseen hothers
  exact ⟨h.store.trans hstore, hseen, fun name scope hscope hout =>
    (hothers name scope (h.store.scope_lt hscope) hout).trans
    (Function.hasLabel_of_marks (h.marks_eq hlt))⟩

/-- The labels of a scope that is around nothing else are those that it has. -/
theorem Concludes.inner {outer inner : ScopeId} (hc : Concludes seen final s w outer)
    (hparent : w.store.ancestors inner = inner :: w.store.ancestors outer)
    (hlt : outer.index < inner.index) (hin : inner.index < w.store.scopes.size)
    (hls : ∀ name, (current w).HasLabel name inner ↔ name ∈ ls) :
    Concludes (ls ++ seen) final s w inner := by
  have hout : inner ∉ w.store.ancestors outer :=
    fun hmem => Nat.not_lt.2 (w.store.ancestors_le _ hmem) hlt
  refine ⟨hc.store, fun name => ?_, fun name scope hscope hnot => hc.others name scope hscope
    fun hmem => hnot ?_⟩
  · rw [hparent, exists_mem_cons_iff, ← hc.seen, hc.others name inner hin hout, hls, mem_append]
  · rw [hparent]
    exact mem_cons_of_mem _ hmem

theorem size_insideScope (kind : ScopeKind) (range : TextRange) (w : Walk) :
    (insideScope kind range w).store.scopes.size = w.store.scopes.size + 1 :=
  size_scopes_addScope w.store kind (some w.frame.scope) w.frame.function range

theorem labelled_insideScope {kind : ScopeKind} {range : TextRange} (hw : Ready w)
    (hl : Labelled w) : Labelled (insideScope kind range w) := fun name scope h =>
  have hin := Plain.insideScope hw kind range
  hin.store.scope_lt
    (hl name scope ((Function.hasLabel_of_marks (hin.marks_eq hw.function_lt)).1 h))

theorem Jumped.of_scope {kind : ScopeKind} {range : TextRange} (hw : Ready w) (hl : Labelled w)
    (h : Jumped ls js lost (insideScope kind range w) w') :
    Jumped [] (fun seen => js (ls ++ seen)) lost w (outsideScope w w') := by
  have hin := Plain.insideScope hw kind range
  have hout : Plain w' _ := .leaveScope w.frame (nextScope w)
  have hbefore : (current (insideScope kind range w)).marks = (current w).marks :=
    hin.marks_eq hw.function_lt
  have hlt := h.function_lt (hin.store.function_lt hw.function_lt)
  have hafter : (current (outsideScope w w')).marks = (current w').marks := hout.marks_eq hlt
  have hsize := size_insideScope kind range w
  have hnext : (nextScope w).index < (insideScope kind range w).store.scopes.size := by
    rw [hsize]
    exact Nat.lt_succ_self _
  have hlabels : ∀ name (scope : ScopeId), scope.index < w.store.scopes.size + 1 →
      ((current w').HasLabel name scope ↔ (current w).HasLabel name scope ∨
        scope = nextScope w ∧ name ∈ ls) := by
    intro name scope hlt
    rw [h.labels name scope (hsize ▸ hlt), Function.hasLabel_of_marks hbefore]
    rfl
  refine
    { toKept := h.toKept.scope hw
      labelled := fun name scope hl =>
        hout.store.scope_lt (h.labelled name scope ((Function.hasLabel_of_marks hafter).1 hl))
      labels := fun name scope hlt => ?_
      gotos := fun seen final s hc => ?_
      found := ?_ }
  · have hne : scope ≠ nextScope w := fun heq => absurd hlt (by rw [heq]; exact Nat.lt_irrefl _)
    rw [Function.hasLabel_of_marks hafter, hlabels name scope (Nat.lt_succ_of_lt hlt)]
    simp [hne]
  · have hleft : Concludes seen final s (leaveScope w.frame (nextScope w) w').2 w.frame.scope :=
      { hc with }
    have hends := hleft.of_plain hout hlt (h.store.scope_lt (hin.store.scope_lt hw.scope_lt))
    have hinner : Concludes (ls ++ seen) final s w' (nextScope w) := by
      refine hends.inner ?_ hw.scope_lt (h.store.scope_lt hnext) fun name => ?_
      · refine ancestors_of_parent ?_ hw.scope_lt
        exact (h.store.parent_eq hnext).trans (parent_insideScope hw)
      · -- The new scope has had no label before.
        have hnone : ¬ (current w).HasLabel name (nextScope w) :=
          fun hold => absurd (hl _ _ hold) (Nat.lt_irrefl _)
        exact (hlabels name
          (nextScope w) (Nat.lt_succ_self _)).trans ((or_iff_right hnone).trans (and_iff_right rfl))
    obtain ⟨new, hnew, hall⟩ := h.gotos _ final s hinner
    exact ⟨new, (congrArg Prod.snd hafter).trans (hnew.trans (congrArg (·.2 ++ new) hbefore)), hall⟩
  · exact (hout.jumpFindings.trans h.found).trans (congrArg (· ++ _) hin.jumpFindings)

/-! ## Functions -/

theorem labelled_of_fresh (h : (current w).marks = ({}, [])) : Labelled w :=
  fun _ _ hl => absurd hl (Function.not_hasLabel h)

theorem lostGotos_of_jumped (hfresh : (current w).marks = ({}, [])) (hw : Ready w)
    (h : Jumped o.labels o.jumps lost w w') :
    lostGotos w' w'.frame.function = o.lostJumps.map fun n =>
      gotoDiagnostic w.frame.path n.text n.range := by
  have hlabels : ∀ name (scope : ScopeId), scope.index < w.store.scopes.size →
      ((current w').HasLabel name scope ↔ scope = w.frame.scope ∧ name ∈ o.labels) :=
      fun name scope hlt => by
    rw [h.labels name scope hlt, or_iff_right (Function.not_hasLabel hfresh)]
  have hends : Concludes o.labels (fun name scope => (current w').HasLabel name scope) w'.store w'
      w.frame.scope := by
    refine ⟨.refl _, fun name => ?_, fun _ _ _ _ => .rfl⟩
    rw [h.store.ancestors_eq hw.scope_lt]
    constructor
    · exact fun hname =>
        ⟨w.frame.scope, mem_ancestors_self _ _, (hlabels _ _ hw.scope_lt).2 ⟨rfl, hname⟩⟩
    · rintro ⟨scope, hin, hlabel⟩
      exact ((hlabels _ _ (Nat.lt_of_le_of_lt (w.store.ancestors_le _ hin) hw.scope_lt)).1 hlabel).2
  obtain ⟨new, hnew, hrec⟩ := h.gotos _ _ _ hends
  have hgotos : (current w).pendingGotos = [] := congrArg Prod.snd hfresh
  rw [hgotos, nil_append] at hnew
  have hcurrent : (w'.store.functionAt w'.frame.function).pendingGotos = new := hnew
  rw [lostGotos, hcurrent, Outline.lostJumps, part_eq h.spot Frame.path]
  generalize o.jumps o.labels = js at hrec
  clear hnew hcurrent
  induction hrec with
  | nil => rfl
  | @cons g j _ _ hg _ ih =>
    have hone : isVisibleLabel w'.store (w'.store.functionAt w'.frame.function) g =
        j.seen.contains j.label.text := by
      rw [Bool.eq_iff_iff, isVisibleLabel_iff, contains_iff_mem, hg.label]
      exact hg.seen
    simp only [filter_cons, hone]
    split
    · simp only [map_cons, hg.label, hg.range, ih]
    · exact ih

theorem Jumped.of_function {f : FunctionBody} {name : Option String} {hasColon : Bool}
    {w₁ w₂ : Walk} (hw : Ready w) (hl : Labelled w) (hb : Plain
      (functionAdded f name hasColon w) w₁) (hin : Ready (insideFunction (nextFunction w) w₁))
    (hbody : Labelled (insideFunction (nextFunction w) w₁) →
      Jumped o.labels o.jumps lost (insideFunction (nextFunction w) w₁) w₂) :
    Jumped [] (fun _ => []) (lost ++ o.lostJumps) w
      (outsideFunction w₁.frame (finishFunction (nextFunction w) w₂).2) := by
  -- Nothing is known about the new function when its body starts.
  have hfresh : (current (insideFunction (nextFunction w) w₁)).marks = ({}, []) := by
    have hnew := functionAt_addFunction_new w.store (innerSpec w.frame f name hasColon)
    have hjumps := hb.functions.core_eq w.store.functions.size (by simp [functionAdded])
    exact (part_eq hjumps Function.marks).trans (congrArg Function.marks hnew)
  have hjumped := hbody (labelled_of_fresh hfresh)
  have hlost := lostGotos_of_jumped hfresh hin hjumped
  rw [hjumped.function_eq] at hlost
  have hspares : w.store.Spares (nextFunction w) (finishFunction (nextFunction w) w₂).2.store := by
    rw [store_finishFunction]
    exact (((Store.Spares.addFunction w.store).trans (.of_grows hb.functions)).trans
      hjumped.spares).trans .modify
  have hother : w.frame.function ≠ nextFunction w := fun heq =>
    absurd hw.function_lt (by rw [heq]; exact Nat.lt_irrefl _)
  have hkept : Kept w w₁ := (Kept.functionAdded hw f name hasColon).trans (.of_plain hb)
  refine .of_same (hkept.function hjumped.toKept) hl ?_ ?_
  · have hmarks := part_eq (hspares.jumps _ hother hw.function_lt) Function.marks
    rw [← hkept.function_eq] at hmarks
    exact hmarks.trans (congrArg (fun id => (w.store.functionAt id).marks) hkept.function_eq)
  · have hbefore : ∀ lost, lostFindings w₁.frame lost = lostFindings w.frame lost :=
      fun _ => lostFindings_of_spot hkept.spot
    have hlet : ∀ lost, lostFindings (insideFunction (nextFunction w) w₁).frame lost =
      lostFindings w.frame lost := hbefore
    change (finishFunction (nextFunction w) w₂).2.jumpFindings = _
    rw [jumpFindings_finishFunction, hjumped.found,
      lostFindings_append, ← append_assoc, ← hlet, ← hlet, part_eq hjumped.spot Frame.gate]
    exact congr (congrArg (· ++ _ ++ ·) hb.jumpFindings) (congrArg (List.filter _) hlost)

theorem Plays.jumped (h : Plays o w w') (hl : Labelled w) :
    Jumped o.labels o.jumps (o.bodies.flatMap (·.lostJumps)) w w' := by
  induction h with
  | done hw => exact .of_plain hw hl .refl
  | plain hw hp _ ih =>
    have hfirst := Jumped.of_plain hw hl hp
    exact hfirst.trans hw (ih hfirst.labelled)
  | @goto name _ w _ hw _ ih =>
    have hfirst : Jumped [] (fun seen => [⟨name, seen⟩]) [] w _ := jumped_addGoto hw hl
    exact hfirst.trans hw (ih hfirst.labelled)
  | @label name _ w _ hw _ ih =>
    have hfirst : Jumped [name.text] (fun _ => []) [] w _ := jumped_addLabel hw hl
    exact hfirst.trans hw (ih hfirst.labelled)
  | @scope kind range body o w w₁ w' hw _ _ ih ih' =>
    rw [Outline.bodies, flatMap_append]
    have hblock := Jumped.of_scope hw hl (ih (labelled_insideScope hw hl))
    exact hblock.trans hw (ih' hblock.labelled)
  | @function f name hasColon body o w w₁ w₂ w' hw hb hin _ ih ih' =>
    have hbody := Jumped.of_function hw hl hb hin.ready ih
    have hall := hbody.trans hw (ih' hbody.labelled)
    simpa [Outline.labels, Outline.jumps, Outline.bodies] using hall

/-! ## Files -/

theorem jumpFindings_atEnd (he : enter.Returns) (hw : w.store.WellFormed) {f : FileId}
    {source : SourceFile} {chunk : Chunk} : (atEnd env enter f source chunk w).jumpFindings =
      (chunk.block.outline.lostGotos.map fun n => gotoDiagnostic source.path n.text n.range).filter
        (env.keeps source) := by
  have hplay := @plays_treeEnd env enter w he hw f source chunk
  have hfresh : (current (entering env f source chunk w)).marks = ({}, []) :=
    congrArg Function.marks (functionAt_addFunction_new w.store (.main f chunk.range))
  have hjumped := hplay.jumped (labelled_of_fresh hfresh)
  have hlost := lostGotos_of_jumped hfresh hplay.ready hjumped
  rw [hjumped.function_eq] at hlost
  have hend : (atEnd env enter f source chunk w).jumpFindings = _ :=
    atEnd_eq ▸ jumpFindings_finishFunction
  rw [hend, hjumped.found, Outline.lostGotos, flatMap_append, flatMap_singleton, map_append,
    filter_append, part_eq hjumped.spot Frame.gate]
  exact congrArg (_ ++ List.filter _ ·) hlost

end WalkM

end LuaAnalysis
