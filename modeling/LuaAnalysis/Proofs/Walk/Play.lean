import LuaAnalysis.Proofs.Walk.Load
import LuaAnalysis.Proofs.Walk.Outline

/-!
# Walks that play outlines

A walk of a tree meets the labels and jumps of the tree's outline in order, inside the scopes and
functions that stand around them, with plain steps in between (`Plays`). It comes back to its place,
and it leaves the labels and jumps of the functions alone that were there, but for the current one
(`Kept`).
-/

namespace LuaAnalysis

/-- Where a walk is, without what is assumed about names there. -/
def Frame.spot (f : Frame) : Frame :=
  { f.place with guards := [], selfTarget := none }

/-- The labels and jumps of all functions but `current` are as they were. -/
structure Store.Spares (current : FunctionId) (s s' : Store) : Prop where
  size_le : s.functions.size ≤ s'.functions.size
  jumps : ∀ id ≠ current, id.index < s.functions.size →
    (s'.functionAt id).jumps = (s.functionAt id).jumps

namespace Store.Spares

variable {current : FunctionId} {s s' s'' : Store}

theorem trans (h : Spares current s s') (h' : Spares current s' s'') : Spares current s s'' where
  size_le := Nat.le_trans h.size_le h'.size_le
  jumps id hne hid :=
    (h'.jumps id hne (Nat.lt_of_lt_of_le hid h.size_le)).trans (h.jumps id hne hid)

theorem of_grows (h : Grows Function.jumps s.functions s'.functions) : Spares current s s' :=
  ⟨h.size_le, fun id _ hid => h.core_eq id.index hid⟩

theorem modify {f : Function → Function} : Spares current s (s.modifyFunction current f) := by
  refine ⟨by simp [modifyFunction], fun id hne hid => ?_⟩
  rw [functionAt_modifyFunction, if_neg]
  rintro ⟨heq, -⟩
  exact hne (by cases id; cases current; simp_all)

theorem addFunction (s : Store) {spec : FunctionSpec} : Spares current s (s.addFunction spec).1 :=
  ⟨by simp, fun id _ hid => by rw [functionAt_addFunction s spec hid]⟩

theorem trans_new {new : FunctionId} (h : Spares current s s') (h' : Spares new s' s'')
    (hnew : s.functions.size ≤ new.index) : Spares current s s'' where
  size_le := Nat.le_trans h.size_le h'.size_le
  jumps id hne hid := by
    have hother : id ≠ new := fun heq => absurd hid (by rw [heq]; omega)
    exact (h'.jumps id hother (Nat.lt_of_lt_of_le hid h.size_le)).trans (h.jumps id hne hid)

end Store.Spares

namespace WalkM

variable {env : WalkEnv} {enter : Enter} {o o' : Outline} {w w' w'' : Walk}

/-! ## Scopes and functions -/

/-- A walk is in a function and a scope that its store holds. -/
structure Ready (w : Walk) : Prop where
  wellFormed : w.store.WellFormed
  scope_lt : w.frame.scope.index < w.store.scopes.size
  function_lt : w.frame.function.index < w.store.functions.size

theorem Ready.parent_lt (hw : Ready w) :
    ∀ p ∈ some w.frame.scope, p.index < w.store.scopes.size := by
  rintro p ⟨⟩
  exact hw.scope_lt

def nextScope (w : Walk) : ScopeId :=
  ⟨w.store.scopes.size⟩

def nextFunction (w : Walk) : FunctionId :=
  ⟨w.store.functions.size⟩

def changeDepth (function : FunctionId) (f : Nat → Nat) : WalkM Unit :=
  changeStore (·.modifyFunction function fun x => { x with scopeDepth := f x.scopeDepth })

def scopeOpened (kind : ScopeKind) (range : TextRange) (w : Walk) : Walk :=
  { w with store := (w.store.addScope kind (some w.frame.scope) w.frame.function range).1 }

def leaveScope (outer : Frame) (scope : ScopeId) : WalkM Unit := do
  closeScope scope
  changeDepth outer.function (· - 1)

def inScope (scope : ScopeId) (w : Walk) : Walk :=
  { w with frame := { w.frame with scope } }

def insideScope (kind : ScopeKind) (range : TextRange) (w : Walk) : Walk :=
  inScope (nextScope w) (changeDepth w.frame.function (· + 1) (scopeOpened kind range w)).2

/-- The state after a scope, from the state before it and the one at its end. -/
def outsideScope (w w' : Walk) : Walk :=
  inScope w.frame.scope (leaveScope w.frame (nextScope w) w').2

def innerSpec (f : Frame) (body : FunctionBody) (name : Option String) (hasColon : Bool) :
    FunctionSpec where
  file := f.file
  name := name
  parent := some f.function
  parentScope := some f.scope
  params := body.params.map (·.text)
  isVararg := body.isVararg
  hasColon := hasColon
  range := body.range

/-- The state with a new function whose main scope lies in the current one. -/
def functionAdded (body : FunctionBody) (name : Option String) (hasColon : Bool)
    (w : Walk) : Walk :=
  { w with store := (w.store.addFunction (innerSpec w.frame body name hasColon)).1 }

def insideFunction (id : FunctionId) (w : Walk) : Walk :=
  { w with frame := { w.frame with
    function := id, scope := (w.store.functionAt id).mainScope, guards := [], selfTarget := none } }

def outsideFunction (outer : Frame) (w : Walk) : Walk :=
  { w with frame := { w.frame with
    function := outer.function, scope := outer.scope, guards := outer.guards, selfTarget :=
      outer.selfTarget } }

theorem silent_changeDepth {function : FunctionId} {f : Nat → Nat} :
    Silent env (changeDepth function f) :=
  silent_modifyFunction env fun _ => rfl

theorem silent_leaveScope {outer : Frame} {scope : ScopeId} : Silent env (leaveScope outer scope) :=
  .bind reports_closeScope.silent fun _ => silent_changeDepth

def visit (env : WalkEnv) (enter : Enter) (l : LoadCall) : WalkM ValueInfo :=
  visitLoad env enter l.kind l.module l.range

/-! ## Plays -/

/-- A step that meets no label and no jump, and comes back to its place. -/
structure Plain (w w' : Walk) : Prop where
  spot : w'.frame.spot = w.frame.spot
  store : Store.Extends (fun _ => True) w.store w'.store
  functions : Grows Function.jumps w.store.functions w'.store.functions
  jumpFindings : w'.jumpFindings = w.jumpFindings

namespace Plain

theorem refl : Plain w w :=
  ⟨rfl, .refl _, .refl, rfl⟩

theorem trans (h : Plain w w') (h' : Plain w' w'') : Plain w w'' :=
  ⟨h'.spot.trans h.spot, h.store.trans h'.store, h.functions.trans h'.functions,
    h'.jumpFindings.trans h.jumpFindings⟩

theorem of_place (hplace : w'.frame.place = w.frame.place)
    (hs : Store.Extends (fun _ => False) w.store w'.store) (hf : Grows Function.jumps
      w.store.functions w'.store.functions) (hj : w'.jumpFindings = w.jumpFindings) :
    Plain w w' :=
  ⟨part_eq hplace Frame.spot, hs.weaken fun _ _ => False.elim, hf, hj⟩

theorem of_still (h : Still env w w') : Plain w w' :=
  .of_place h.place h.store.toExtends h.functions h.jumpFindings

theorem of_silent {m : WalkM α} (h : Silent default m) : Plain w (m w).2 :=
  .of_still (h.still w)

theorem of_frame {f : Frame} (hspot : f.spot = w.frame.spot) (hf : f.findings = w.frame.findings) :
    Plain w { w with frame := f } :=
  ⟨hspot, .refl _, .refl, by rw [Walk.jumpFindings, hf, Walk.jumpFindings]⟩

theorem insideScope (hw : Ready w) (kind : ScopeKind) (range : TextRange) :
    Plain w (inScope w.frame.scope (insideScope kind range w)) := by
  have hopen : Store.Extends (fun _ => True) w.store (scopeOpened kind range w).store :=
    (Store.within_addScope _ w.store hw.parent_lt fun _ _ => trivial).toExtends
  have hfunctions :
    Grows Function.jumps w.store.functions (scopeOpened kind range w).store.functions :=
    .of_eq (Store.functions_addScope ..)
  have hdepth : Plain (scopeOpened kind range w)
    (changeDepth w.frame.function (· + 1) (scopeOpened kind range w)).2 :=
    .of_silent silent_changeDepth
  exact ⟨rfl, hopen.trans hdepth.store, hfunctions.trans hdepth.functions, rfl⟩

theorem leaveScope (outer : Frame) (scope : ScopeId) : Plain w (leaveScope outer scope w).2 :=
  .of_silent silent_leaveScope

end Plain

/-- The walk plays an outline: it meets what the outline says, with plain steps in between. -/
inductive Plays : Outline → Walk → Walk → Prop
  | done {w : Walk} (hw : Ready w) : Plays .done w w
  | plain {o : Outline} {w w' w'' : Walk} (hw : Ready w) (h : Plain w w') (rest : Plays o w' w'') :
      Plays o w w''
  | goto {name : Name} {o : Outline} {w w' : Walk} (hw : Ready w)
      (rest : Plays o (addGoto name w).2 w') :
    Plays (.goto name o) w w'
  | label {name : Name} {o : Outline} {w w' : Walk} (hw : Ready w)
      (rest : Plays o (addLabel name w).2 w') :
    Plays (.label name o) w w'
  | scope {kind : ScopeKind} {range : TextRange} {body o : Outline} {w w' w'' : Walk} (hw : Ready w)
      (inside : Plays body (insideScope kind range w) w') (rest : Plays o (outsideScope w w') w'') :
      Plays (.scope body o) w w''
  | function {f : FunctionBody} {name : Option String} {hasColon : Bool} {body o : Outline}
      {w w₁ w₂ w' : Walk}
      (hw : Ready w) (before : Plain (functionAdded f name hasColon w) w₁)
      (inside : Plays body (insideFunction (nextFunction w) w₁) w₂)
      (rest : Plays o (outsideFunction w₁.frame (finishFunction (nextFunction w) w₂).2) w') :
      Plays (.function body o) w w'

namespace Plays

theorem ready (h : Plays o w w') : Ready w := by
  cases h <;> assumption

theorem append (h : Plays o w w') (h' : Plays o' w' w'') : Plays (o ++ o') w w'' := by
  induction h with
  | done _ => exact h'
  | plain hw hp _ ih => exact .plain hw hp (ih h')
  | goto hw _ ih => exact .goto hw (ih h')
  | label hw _ ih => exact .label hw (ih h')
  | scope hw hin _ _ ih => exact .scope hw hin (ih h')
  | function hw hb hin _ _ ih => exact .function hw hb hin (ih h')

theorem append_plain (h : Plays o w w') (hw : Ready w') (hp : Plain w' w'') (hw' : Ready w'') :
    Plays o w w'' :=
  (Outline.append_done (o := o)) ▸ h.append (.plain hw hp (.done hw'))

theorem plain_of_done (h : Plays .done w w') : Plain w w' := by
  generalize ho : Outline.done = o at h
  induction h with
  | done _ => exact .refl
  | plain _ hp _ ih => exact hp.trans (ih ho)
  | goto | label | scope | function => cases ho

end Plays

/-! ## What plays leave alone -/

/-- A walk has come back to its place, and the labels and jumps of other functions are as they
were. -/
structure Kept (w w' : Walk) : Prop where
  spot : w'.frame.spot = w.frame.spot
  store : Store.Extends (fun _ => True) w.store w'.store
  spares : w.store.Spares w.frame.function w'.store

namespace Kept

theorem function_eq (h : Kept w w') : w'.frame.function = w.frame.function :=
  part_eq h.spot Frame.function

theorem function_lt (h : Kept w w') (hlt : w.frame.function.index < w.store.functions.size) :
    w'.frame.function.index < w'.store.functions.size := by
  rw [h.function_eq]
  exact h.store.function_lt hlt

theorem trans (h : Kept w w') (h' : Kept w' w'') : Kept w w'' :=
  ⟨h'.spot.trans h.spot, h.store.trans h'.store, h.spares.trans (h.function_eq ▸ h'.spares)⟩

theorem of_plain (h : Plain w w') : Kept w w' :=
  ⟨h.spot, h.store, .of_grows h.functions⟩

theorem modify {f : Function → Function} (hf : ∀ x, (f x).core = x.core) :
    Kept w { w with store := w.store.modifyFunction w.frame.function f } :=
  ⟨rfl, (Store.within_modifyFunction _ w.store hf).toExtends, .modify⟩

theorem scope {kind : ScopeKind} {range : TextRange} (hw : Ready w)
    (h : Kept (insideScope kind range w) w') : Kept w (outsideScope w w') := by
  have hin := Plain.insideScope hw kind range
  have hout : Plain w' _ := .leaveScope w.frame (nextScope w)
  refine ⟨?_, hin.store.trans (h.store.trans hout.store), ?_⟩
  · exact congrArg (fun p : Frame => { p with scope := w.frame.scope }) (hout.spot.trans h.spot)
  · exact (Store.Spares.of_grows hin.functions).trans (h.spares.trans (.of_grows hout.functions))

theorem functionAdded (hw : Ready w) (f : FunctionBody) (name : Option String) (hasColon : Bool) :
    Kept w (functionAdded f name hasColon w) :=
  ⟨rfl, Store.extends_addFunction _ w.store _ hw.parent_lt fun _ _ => trivial, .addFunction w.store⟩

/-- What the body of a new function does concerns the new function only. -/
theorem function {w₁ w₂ : Walk} (h : Kept w w₁)
    (h' : Kept (insideFunction (nextFunction w) w₁) w₂) :
    Kept w (outsideFunction w₁.frame (finishFunction (nextFunction w) w₂).2) := by
  have hfinish : (finishFunction (nextFunction w) w₂).2.store = _ := store_finishFunction
  refine ⟨?_, ?_, ?_⟩
  · have hspot := (part_eq (place_finishFunction (nextFunction w) w₂) Frame.spot).trans h'.spot
    exact (congrArg (fun p : Frame =>
      { p with function := w₁.frame.function, scope := w₁.frame.scope }) hspot).trans h.spot
  · refine (h.store.trans h'.store).trans ?_
    exact hfinish ▸ (Store.within_modifyFunction _ w₂.store (by exact fun _ => rfl)).toExtends
  · exact (h.spares.trans_new h'.spares (Nat.le_refl _)).trans_new (hfinish ▸ .modify)
      (Nat.le_refl _)

end Kept

theorem Plays.kept (h : Plays o w w') : Kept w w' := by
  induction h with
  | done _ => exact ⟨rfl, .refl _, .of_grows .refl⟩
  | plain _ hp _ ih => exact (Kept.of_plain hp).trans ih
  | goto _ _ ih => exact (Kept.modify (by exact fun _ => rfl)).trans ih
  | label _ _ ih => exact (Kept.modify (by exact fun _ => rfl)).trans ih
  | scope hw _ _ ih ih' => exact (Kept.scope hw ih).trans ih'
  | function hw hb _ _ ih ih' =>
    exact (Kept.function ((Kept.functionAdded hw _ _ _).trans (.of_plain hb)) ih).trans ih'

end WalkM

end LuaAnalysis
