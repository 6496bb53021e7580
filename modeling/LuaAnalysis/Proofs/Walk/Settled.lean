import LuaAnalysis.Proofs.Symbol.DeepCopy

/-!
# What stays known about variables

An assignment replaces the kind and the members of a variable whose value is unknown, nil or an
empty table, and of no other one. The first function that a variable is given stays its function.
-/

namespace LuaAnalysis

/-- Assignments leave the kind and the members of the variable as they are. -/
def Variable.isSettled (v : Variable) : Bool :=
  !(v.kind.isReplaceable || v.flags.declaredEmpty)

/-- A settled variable stays settled and keeps its members, and a variable keeps its function. -/
structure Variable.Settles (v v' : Variable) : Prop where
  settled : v.isSettled = true → v'.isSettled = true
  members : v.isSettled = true → ∀ name ∈ v.members.keys, name ∈ v'.members.keys
  function : ∀ f ∈ v.function, f ∈ v'.function

theorem Variable.Settles.of_eq {v v' : Variable} (hkind : v'.kind = v.kind)
    (hempty : v'.flags.declaredEmpty = v.flags.declaredEmpty)
    (hmembers : v'.members = v.members) (hfunction : v'.function = v.function) : v.Settles v' :=
  ⟨fun h => by rwa [isSettled, hkind, hempty], fun _ _ h => hmembers ▸ h, fun _ h => hfunction ▸ h⟩

theorem Variable.Settles.refl {v : Variable} : v.Settles v :=
  .of_eq rfl rfl rfl rfl

/-- Every variable of `s` does so on the way to `s'`. -/
structure Store.Settles (s s' : Store) : Prop where
  size_le : s.vars.size ≤ s'.vars.size
  variableAt : ∀ id : VariableId, id.index < s.vars.size →
    (s.variableAt id).Settles (s'.variableAt id)

namespace Store

variable {s s' s'' : Store} {v : VariableId} {info : ValueInfo} {name : String}

namespace Settles

theorem of_grows (h : Grows id s.vars s'.vars) : s.Settles s' := by
  refine ⟨h.size_le, fun v hv => ?_⟩
  have heq : s'.variableAt v = s.variableAt v := h.core_eq v.index hv
  rw [heq]
  exact .refl

theorem of_vars (h : s'.vars = s.vars) : s.Settles s' :=
  .of_grows (.of_eq h)

theorem refl : s.Settles s :=
  .of_vars rfl

theorem trans (h : s.Settles s') (h' : s'.Settles s'') : s.Settles s'' := by
  refine ⟨Nat.le_trans h.size_le h'.size_le, fun v hv => ?_⟩
  have hfirst := h.variableAt v hv
  have hnext := h'.variableAt v (Nat.lt_of_lt_of_le hv h.size_le)
  exact
    { settled := fun hs => hnext.settled (hfirst.settled hs)
      members := fun hs name hname =>
        hnext.members (hfirst.settled hs) name (hfirst.members hs name hname)
      function := fun f hf => hnext.function f (hfirst.function f hf) }

theorem modifyVariable {f : Variable → Variable} (hf : ∀ x, Variable.Settles x (f x)) :
    s.Settles (s.modifyVariable v f) := by
  refine ⟨by simp [Store.modifyVariable], fun u hu => ?_⟩
  rw [variableAt_modifyVariable]
  split
  · exact hf _
  · exact .refl

theorem foldl {α : Type} {f : Store → α → Store} (hf : ∀ s a, Settles s (f s a)) (xs : List α)
    (s : Store) : s.Settles (xs.foldl f s) := by
  induction xs generalizing s with
  | nil => exact .refl
  | cons a xs ih => exact (hf s a).trans (ih (f s a))

theorem clearNarrowing {scope : ScopeId} : s.Settles (s.clearNarrowing scope name) := by
  refine .foldl (fun _ _ => ?_) _ s
  exact .of_vars rfl

theorem declareLocal {scope : ScopeId} : s.Settles (s.declareLocal scope name v) := by
  have hscope : s.Settles (s.modifyVariable v fun x => { x with scope := some scope }) :=
    .modifyVariable fun _ => .of_eq rfl rfl rfl rfl
  exact hscope.trans (.of_vars rfl)

theorem insertMember {u : VariableId} : s.Settles (s.modifyVariable v fun x =>
    { x with members := x.members.insert name u, flags.declaredEmpty := false }) := by
  refine .modifyVariable fun x => ⟨fun h => ?_, fun _ _ hname => ?_, fun _ h => h⟩
  · simp only [Variable.isSettled, Bool.not_or, Bool.and_eq_true] at h ⊢
    exact ⟨h.1, rfl⟩
  · exact OrderedMap.mem_keys_insert.2 (.inr hname)

theorem reassign : s.Settles (s.reassign v info) := by
  refine .modifyVariable fun x => ?_
  by_cases hsettled : x.isSettled = true
  · have hkeep : (x.kind.isReplaceable || x.flags.declaredEmpty) = false := by
      simpa [Variable.isSettled] using hsettled
    rw [hkeep]
    exact ⟨fun h => h, fun _ _ h => h, fun f hf => by simp_all⟩
  · refine ⟨fun h => absurd h hsettled, fun h => absurd h hsettled, fun f hf => ?_⟩
    dsimp only
    split <;> simp_all

/-! ## Copies -/

variable {source : Store} {origin : FileId}

theorem importVariable : s.Settles (s.importVariable source origin v).1 :=
  .of_grows (@keeps_importVariable (fun _ => True) s (fun _ => source) origin v).1.vars

theorem importAll (entries : List (String × VariableId)) :
    s.Settles (s.importAll source origin entries).1 := by
  induction entries generalizing s with
  | nil => exact .refl
  | cons e entries ih => exact importVariable.trans ih

theorem addVariable (x : Variable) : s.Settles (s.addVariable x).1 :=
  .of_grows (.push id s.vars x)

theorem bindModule {load : LoadKind} {r : FileResult} : s.Settles (s.bindModule load r).1 := by
  unfold Store.bindModule
  split
  · exact .refl
  · exact .refl
  · exact .addVariable _
  · exact .addVariable _

theorem importModule {load : LoadKind} {a : FileAnalysis} :
    s.Settles (s.importModule load a).1 := by
  unfold Store.importModule
  split
  · exact .refl
  · exact importVariable
  · exact .addVariable _
  · exact (importAll _).trans (.addVariable _)

end Settles

/-- An assignment loses a member of a variable that is not settled, if the value was held by a
variable without that member. -/
theorem loses_reassign_iff (hv : v.index < s.vars.size)
    (hname : name ∈ (s.variableAt v).members.keys) :
    name ∉ ((s.reassign v info).variableAt v).members.keys ↔ (s.variableAt v).isSettled = false ∧
      ∃ held ∈ info.var, held ≠ v ∧ name ∉ (s.variableAt held).members.keys := by
  rw [Store.reassign, variableAt_modifyVariable, if_pos ⟨rfl, hv⟩]
  cases hsettled : (s.variableAt v).kind.isReplaceable || (s.variableAt v).flags.declaredEmpty with
  | false => simp [Variable.isSettled, hsettled, hname]
  | true =>
    cases hheld : info.var with
    | none => simp [Variable.isSettled, hsettled, hname]
    | some held =>
      by_cases heq : held = v <;> simp [Variable.isSettled, Option.filter, hsettled, hname, heq]

end Store

end LuaAnalysis
