import LuaAnalysis.Proofs.Symbol.Growth

/-!
# Numbers of a store

A store owns a value if all numbers of symbols in it are numbers of the store: then whatever is
looked up with them is there. What a store owns it still owns when it has grown (`Includes`).
`HoldsIds` says of a type which numbers its values hold.
-/

namespace LuaAnalysis

/-! ## What a growing store keeps -/

/-- The symbols of `s` are symbols of `s'`, and variables stay where they are declared. -/
structure Store.Includes (s s' : Store) : Prop where
  scopes : s.scopes.size ≤ s'.scopes.size
  vars : s.vars.size ≤ s'.vars.size
  functions : s.functions.size ≤ s'.functions.size
  references : s.references.size ≤ s'.references.size
  scope_eq : ∀ v : VariableId, v.index < s.vars.size →
    (s'.variableAt v).scope = (s.variableAt v).scope

/-- Moreover scopes keep their functions, and no function has become a copy. -/
structure Store.Retains (s s' : Store) : Prop extends s.Includes s' where
  function_eq : ∀ x : ScopeId, x.index < s.scopes.size →
    (s'.scopeAt x).function = (s.scopeAt x).function
  originals : ∀ f : FunctionId, f.index < s.functions.size → f ∈ s'.importedFunctions.values →
    f ∈ s.importedFunctions.values

namespace Store.Retains

variable {s s' s'' : Store}

theorem refl : s.Retains s :=
  ⟨⟨Nat.le_refl _, Nat.le_refl _, Nat.le_refl _, Nat.le_refl _, fun _ _ => rfl⟩, fun _ _ =>
    rfl, fun _ _ h => h⟩

theorem trans (h : s.Retains s') (h' : s'.Retains s'') : s.Retains s'' where
  scopes := Nat.le_trans h.scopes h'.scopes
  vars := Nat.le_trans h.vars h'.vars
  functions := Nat.le_trans h.functions h'.functions
  references := Nat.le_trans h.references h'.references
  scope_eq v hv := (h'.scope_eq v (Nat.lt_of_lt_of_le hv h.vars)).trans (h.scope_eq v hv)
  function_eq x hx := (h'.function_eq x (Nat.lt_of_lt_of_le hx h.scopes)).trans (h.function_eq x hx)
  originals f hf hcopy :=
    h.originals f hf (h'.originals f (Nat.lt_of_lt_of_le hf h.functions) hcopy)

theorem of_extends {free : ScopeId → Prop} (h : Store.Extends free s s')
    (hcopies : ∀ f : FunctionId, f.index < s.functions.size → f ∈ s'.importedFunctions.values →
      f ∈ s.importedFunctions.values) : s.Retains s' where
  scopes := h.scopes.size_le
  vars := h.vars.size_le
  functions := h.functions.size_le
  references := h.references.size_le
  scope_eq _ hv := part_eq (h.variable_core hv) Variable.scope
  function_eq _ hx := part_eq (h.scope_shape hx) Scope.function
  originals := hcopies

end Store.Retains

/-! ## Values that hold numbers -/

/-- Values that may hold numbers of symbols. -/
class HoldsIds (α : Type) where
  /-- The numbers in the value are numbers of the store. -/
  owned : Store → α → Prop
  owned_of_includes {s s' : Store} {a : α} : s.Includes s' → owned s a → owned s' a

/-- All numbers in the value are numbers of the store. -/
def Store.Owns {α : Type} [HoldsIds α] (s : Store) (a : α) : Prop :=
  HoldsIds.owned s a

section Instances

variable {α κ : Type} [HoldsIds α] {s s' : Store}

variable {a : α}

theorem Store.Includes.owns (h : s.Includes s') (ha : s.Owns a) : s'.Owns a :=
  HoldsIds.owned_of_includes h ha

theorem Store.Retains.owns (h : s.Retains s') (ha : s.Owns a) : s'.Owns a :=
  h.toIncludes.owns ha

instance : HoldsIds ScopeId :=
  ⟨fun s x => x.index < s.scopes.size, fun h hx => Nat.lt_of_lt_of_le hx h.scopes⟩

instance : HoldsIds VariableId :=
  ⟨fun s v => v.index < s.vars.size, fun h hv => Nat.lt_of_lt_of_le hv h.vars⟩

instance : HoldsIds FunctionId :=
  ⟨fun s f => f.index < s.functions.size, fun h hf => Nat.lt_of_lt_of_le hf h.functions⟩

instance : HoldsIds ReferenceId :=
  ⟨fun s r => r.index < s.references.size, fun h hr => Nat.lt_of_lt_of_le hr h.references⟩

instance : HoldsIds (Option α) :=
  ⟨fun s o => ∀ a ∈ o, s.Owns a, fun h ho a ha => h.owns (ho a ha)⟩

instance : HoldsIds (List α) :=
  ⟨fun s as => ∀ a ∈ as, s.Owns a, fun h has a ha => h.owns (has a ha)⟩

instance : HoldsIds (OrderedMap κ α) :=
  ⟨fun s m => ∀ a ∈ m.values, s.Owns a, fun h hm a ha => h.owns (hm a ha)⟩

instance : HoldsIds PUnit :=
  ⟨fun _ _ => True, fun _ _ => trivial⟩

end Instances

variable {v : VariableId}

namespace Store

variable {α κ : Type} [HoldsIds α] {s s' : Store} {as : List α}

theorem owns_scope_iff {x : ScopeId} : s.Owns x ↔ x.index < s.scopes.size :=
  Iff.rfl

theorem owns_variable_iff : s.Owns v ↔ v.index < s.vars.size :=
  Iff.rfl

theorem owns_function_iff {f : FunctionId} : s.Owns f ↔ f.index < s.functions.size :=
  Iff.rfl

theorem owns_none : s.Owns (none : Option α) :=
  nofun

theorem owns_some {a : α} : s.Owns (some a) ↔ s.Owns a :=
  ⟨fun h => h a rfl, fun h _ hb => Option.some.inj hb ▸ h⟩

theorem owns_nil : s.Owns ([] : List α) :=
  nofun

theorem owns_cons : s.Owns (a :: as) ↔ s.Owns a ∧ s.Owns as :=
  List.forall_mem_cons

theorem Owns.snoc (h : s.Owns as) (ha : s.Owns a) : s.Owns (as ++ [a]) :=
  List.forall_mem_append.2 ⟨h, owns_cons.2 ⟨ha, owns_nil⟩⟩

theorem Owns.orElse {o o' : Option α} (h : s.Owns o) (h' : s.Owns o') : s.Owns (o <|> o') := by
  cases o with
  | none => exact h'
  | some a => exact h

theorem owns_empty : s.Owns ({} : OrderedMap κ α) :=
  nofun

variable [DecidableEq κ] {m : OrderedMap κ α}

theorem Owns.get? (h : s.Owns m) {k : κ} : s.Owns (m.get? k) :=
  fun a ha => h a (OrderedMap.mem_values_of_get? ha)

theorem Owns.insert (h : s.Owns m) {k : κ} (ha : s.Owns a) : s.Owns (m.insert k a) := by
  intro b hb
  rcases OrderedMap.mem_values_insert hb with rfl | hb
  · exact ha
  · exact h b hb

theorem Owns.alter_snoc {m : OrderedMap κ (List α)} (h : s.Owns m) {k : κ} (ha : s.Owns a) :
    s.Owns (m.alter k fun as => as.getD [] ++ [a]) := by
  refine h.insert (Owns.snoc ?_ ha)
  cases hget : m.get? k with
  | none => exact owns_nil
  | some as => exact h.get? as hget

theorem Owns.erase (h : s.Owns m) {k : κ} : s.Owns (m.erase k) := by
  intro a ha
  obtain ⟨e, he, rfl⟩ := List.mem_map.1 ha
  exact h e.2 (List.mem_map.2 ⟨e, (List.mem_filter.1 he).1, rfl⟩)

end Store

/-! ## Symbols -/

section Symbols

variable (s : Store)

structure Scope.Owned (x : Scope) : Prop where
  parent : s.Owns x.parent
  children : s.Owns x.children
  function : s.Owns x.function
  locals : s.Owns x.locals
  narrowed : s.Owns x.narrowed
  chainNarrowed : s.Owns x.chainNarrowed

structure Variable.Owned (v : Variable) : Prop where
  scope : s.Owns v.scope
  owner : s.Owns v.owner
  function : s.Owns v.function
  reference : s.Owns v.reference
  members : s.Owns v.members

instance : HoldsIds ReturnSite :=
  ⟨fun s r => s.Owns r.value, fun h hr => h.owns hr⟩

instance : HoldsIds Label :=
  ⟨fun s l => s.Owns l.scope, fun h hl => h.owns hl⟩

instance : HoldsIds PendingGoto :=
  ⟨fun s g => s.Owns g.scope, fun h hg => h.owns hg⟩

structure Function.Owned (f : Function) : Prop where
  parent : s.Owns f.parent
  mainScope : s.Owns f.mainScope
  colonVariable : s.Owns f.colonVariable
  returns : s.Owns f.returns
  labels : s.Owns f.labels
  pendingGotos : s.Owns f.pendingGotos

end Symbols

instance : HoldsIds Scope :=
  ⟨Scope.Owned, fun h hx =>
    ⟨h.owns hx.parent, h.owns hx.children, h.owns hx.function, h.owns hx.locals,
    h.owns hx.narrowed, h.owns hx.chainNarrowed⟩⟩

instance : HoldsIds Variable :=
  ⟨Variable.Owned,
    fun h hv => ⟨h.owns hv.scope, h.owns hv.owner, h.owns hv.function, h.owns hv.reference,
    h.owns hv.members⟩⟩

instance : HoldsIds Function :=
  ⟨Function.Owned,
    fun h hf => ⟨h.owns hf.parent, h.owns hf.mainScope, h.owns hf.colonVariable, h.owns hf.returns,
    h.owns hf.labels, h.owns hf.pendingGotos⟩⟩

/-- What is known about a value. -/
structure ValueInfo.Owned (s : Store) (info : ValueInfo) : Prop where
  var : s.Owns info.var
  function : s.Owns info.function
  reference : s.Owns info.reference

instance : HoldsIds ValueInfo :=
  ⟨ValueInfo.Owned, fun h hi => ⟨h.owns hi.var, h.owns hi.function, h.owns hi.reference⟩⟩

namespace Store

def IsGlobal (s : Store) (v : VariableId) : Prop :=
  s.Owns v ∧ (s.variableAt v).scope = none

/-- A table of variables that no scope declares. -/
def OwnsGlobals (s : Store) (m : OrderedMap String VariableId) : Prop :=
  ∀ v ∈ m.values, s.IsGlobal v

variable {s s' : Store}

theorem Includes.isGlobal (h : s.Includes s') (hv : s.IsGlobal v) : s'.IsGlobal v :=
  ⟨h.owns hv.1, (h.scope_eq v hv.1).trans hv.2⟩

theorem Includes.ownsGlobals (h : s.Includes s') {m : OrderedMap String VariableId}
    (hm : s.OwnsGlobals m) : s'.OwnsGlobals m :=
  fun v hv => h.isGlobal (hm v hv)

theorem ownsGlobals_empty : s.OwnsGlobals {} :=
  nofun

namespace OwnsGlobals

variable {m : OrderedMap String VariableId} {v : VariableId}

theorem owns (h : s.OwnsGlobals m) : s.Owns m :=
  fun v hv => (h v hv).1

theorem get? (h : s.OwnsGlobals m) {k : String} : ∀ v ∈ m.get? k, s.IsGlobal v :=
  fun v hv => h v (OrderedMap.mem_values_of_get? hv)

theorem insert (h : s.OwnsGlobals m) (k : String) (hv : s.IsGlobal v) :
    s.OwnsGlobals (m.insert k v) := by
  intro u hu
  rcases OrderedMap.mem_values_insert hu with rfl | hu
  · exact hv
  · exact h u hu

theorem insertIfNew (h : s.OwnsGlobals m) (k : String) (hv : s.IsGlobal v) :
    s.OwnsGlobals (m.insertIfNew k v) := by
  unfold OrderedMap.insertIfNew
  split
  · exact h
  · exact h.insert k hv

end OwnsGlobals

end Store

/-! ## Results -/

/-- The numbers in a result are those of the store, and its globals are declared by no scope. -/
structure FileResult.Owned (s : Store) (r : FileResult) : Prop where
  globals : s.OwnsGlobals r.globals
  rootGlobals : s.OwnsGlobals r.rootGlobals
  references : s.Owns r.references
  mainFunction : s.Owns r.mainFunction
  returnValue : s.Owns r.returnValue

instance : HoldsIds FileResult :=
  ⟨FileResult.Owned,
    fun h hr => ⟨h.ownsGlobals hr.globals, h.ownsGlobals hr.rootGlobals, h.owns hr.references,
    h.owns hr.mainFunction, h.owns hr.returnValue⟩⟩

end LuaAnalysis
