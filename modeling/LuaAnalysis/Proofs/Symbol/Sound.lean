import LuaAnalysis.Proofs.Symbol.Owned

/-!
# Sound stores

In a sound store every number leads to a symbol, the scopes form trees, every local is listed once
by the scope that declares it, and a scope without a parent belongs to a whole file or to a copy. A
sound store passes to one that is sound and retains what it holds (`Passes`) when it gets a scope, a
function or a declaration.
-/

namespace LuaAnalysis.Store

open List

/-- The numbers in the symbols of the store, and those of copies, are numbers of the store. -/
structure Closed (s : Store) : Prop where
  scopes : ∀ x : ScopeId, s.Owns x → s.Owns (s.scopeAt x)
  vars : ∀ v : VariableId, s.Owns v → s.Owns (s.variableAt v)
  functions : ∀ f : FunctionId, s.Owns f → s.Owns (s.functionAt f)
  variableCopies : ∀ v ∈ s.importedVariables.values, s.IsGlobal v
  functionCopies : s.Owns s.importedFunctions

/-- A parent has a smaller number than its children, and the children of a scope are those that have
it as parent, each once. -/
structure IsForest (s : Store) : Prop where
  parent_lt : ∀ x : ScopeId, s.Owns x → ∀ p ∈ (s.scopeAt x).parent, p.index < x.index
  mem_children : ∀ p x : ScopeId, s.Owns p → s.Owns x →
    (x ∈ (s.scopeAt p).children ↔ (s.scopeAt x).parent = some p)
  nodup : ∀ p : ScopeId, s.Owns p → (s.scopeAt p).children.Nodup

/-- A scope lists the variables that it declares under their names, and each of them once. -/
structure ListsLocals (s : Store) : Prop where
  listed : ∀ x : ScopeId, s.Owns x → ∀ e ∈ (s.scopeAt x).locals.entries, ∀ v ∈ e.2,
    (s.variableAt v).scope = some x ∧ (s.variableAt v).name = e.1
  once : ∀ v : VariableId, s.Owns v → ∀ x, (s.variableAt v).scope = some x →
    (s.localsOf x).count v = 1

/-- Scopes without a parent are the main scopes of functions without a parent, and a copy has no
scopes inside. -/
structure Rooted (s : Store) : Prop where
  main : ∀ f : FunctionId, s.Owns f → (s.scopeAt (s.functionAt f).mainScope).function = f
  outermost : ∀ x : ScopeId, s.Owns x → (s.scopeAt x).parent = none →
    (s.functionAt (s.scopeAt x).function).mainScope = x ∧
    (s.functionAt (s.scopeAt x).function).parent = none
  copies : ∀ x : ScopeId, s.Owns x → (s.scopeAt x).function ∈ s.importedFunctions.values →
    (s.scopeAt x).children = []

structure Sound (s : Store) : Prop where
  closed : s.Closed
  forest : s.IsForest
  locals : s.ListsLocals
  rooted : s.Rooted

theorem sound_empty : Sound {} where
  closed := ⟨nofun, nofun, nofun, nofun, owns_empty⟩
  forest := ⟨nofun, nofun, nofun⟩
  locals := ⟨nofun, nofun⟩
  rooted := ⟨nofun, nofun, nofun⟩

variable {s : Store}
variable {x : ScopeId} {f : FunctionId} {e : String × List VariableId} {v u : VariableId}
  {m : OrderedMap String (List VariableId)}
variable {r : Reference} {copy : FunctionId} {s' : Store} {id : ReferenceId}

/-- The second store is sound and retains what the first one holds. -/
structure Passes (s s' : Store) : Prop where
  sound : s'.Sound
  retains : s.Retains s'

theorem Passes.trans {s'' : Store} (h : s.Passes s') (h' : s'.Passes s'') : s.Passes s'' :=
  ⟨h'.sound, h.retains.trans h'.retains⟩

theorem Sound.passes_refl (h : s.Sound) : s.Passes s :=
  ⟨h, .refl⟩

/-! ## What is looked up is owned -/

theorem getD_of_size_le {α : Type} {xs : Array α} {i : Nat} (hi : xs.size ≤ i) {d : α} :
    xs.getD i d = d := by
  rw [Array.getD_eq_getD_getElem?, Array.getElem?_eq_none hi, Option.getD_none]

namespace Sound

theorem function_owned (h : s.Sound) (hx : s.Owns x) : s.Owns (s.scopeAt x).function :=
  (h.closed.scopes x hx).function

theorem mainScope_owned (h : s.Sound) (hf : s.Owns f) : s.Owns (s.functionAt f).mainScope :=
  (h.closed.functions f hf).mainScope

theorem variable_owned (h : s.Sound) (v : VariableId) : s.Owns (s.variableAt v) := by
  by_cases hv : s.Owns v
  · exact h.closed.vars v hv
  · rw [variableAt, getD_of_size_le (Nat.le_of_not_lt hv)]
    exact ⟨owns_none, owns_none, owns_none, owns_none, owns_empty⟩

theorem locals_owned (h : s.Sound) : s.Owns (s.scopeAt x).locals := by
  by_cases hx : s.Owns x
  · exact (h.closed.scopes x hx).locals
  · rw [scopeAt, getD_of_size_le (Nat.le_of_not_lt hx)]
    exact owns_empty

theorem listed_owned (h : s.Sound) (he : e ∈ (s.scopeAt x).locals.entries) (hv : v ∈ e.2) :
    s.Owns v :=
  h.locals_owned e.2 (mem_map.2 ⟨e, he, rfl⟩) v hv

end Sound

/-! ## Stores that have grown -/

theorem retains_of_within {free : ScopeId → Prop} (h : Within free s s')
    (hcopies : s'.importedFunctions = s.importedFunctions) :
    s.Retains s' :=
  .of_extends h.toExtends fun _ _ hf => hcopies ▸ hf

theorem retains_modifyReference (s : Store) {f : Reference → Reference} :
    s.Retains (s.modifyReference id f) where
  scopes := Nat.le_refl _
  vars := Nat.le_refl _
  functions := Nat.le_refl _
  references := Nat.le_of_eq (Array.size_modify ..).symm
  scope_eq _ _ := rfl
  function_eq _ _ := rfl
  originals _ _ hf := hf

/-- Every symbol of the second store is one of the first, as it was, or holds numbers of the second
store only. -/
theorem Closed.of_retains (h : s.Closed) (hr : s.Retains s')
    (hscopes : ∀ x : ScopeId, s'.Owns x → s.Owns x ∧ s'.scopeAt x = s.scopeAt x ∨
      s'.Owns (s'.scopeAt x))
    (hvars : ∀ v : VariableId, s'.Owns v → s.Owns v ∧ s'.variableAt v = s.variableAt v ∨
      s'.Owns (s'.variableAt v))
    (hfunctions : ∀ f : FunctionId, s'.Owns f → s.Owns f ∧ s'.functionAt f = s.functionAt f ∨
      s'.Owns (s'.functionAt f))
    (hglobals : ∀ v ∈ s'.importedVariables.values, v ∈ s.importedVariables.values ∨ s'.IsGlobal v)
    (hcopies : s'.importedFunctions = s.importedFunctions) : s'.Closed where
  scopes x hx := (hscopes x hx).elim (fun hold => hold.2 ▸ hr.owns (h.scopes x hold.1)) id
  vars v hv := (hvars v hv).elim (fun hold => hold.2 ▸ hr.owns (h.vars v hold.1)) id
  functions f hf := (hfunctions f hf).elim (fun hold => hold.2 ▸ hr.owns (h.functions f hold.1)) id
  variableCopies v hv :=
    (hglobals v hv).elim (fun hold => hr.toIncludes.isGlobal (h.variableCopies v hold)) id
  functionCopies := hcopies ▸ hr.owns h.functionCopies

section Unchanged

variable {free : ScopeId → Prop}

theorem Sound.lists_of_extends (h : s.Sound) (hs : Extends (fun _ => False) s s')
    (hsize : s'.scopes.size = s.scopes.size) (hnew : ∀ v : VariableId, s'.Owns v → s.Owns v ∨
      (s'.variableAt v).scope = none) : s'.ListsLocals := by
  have hlocals : ∀ x : ScopeId, s.Owns x → (s'.scopeAt x).locals = (s.scopeAt x).locals :=
    fun x hx => hs.locals_eq hx id
  refine ⟨fun x hx e he v hv => ?_, fun v hv x hx => ?_⟩
  · rw [owns_scope_iff, hsize] at hx
    rw [hlocals x hx] at he
    have hcore := hs.variable_core (h.listed_owned he hv)
    rw [part_eq hcore Variable.scope, part_eq hcore Variable.name]
    exact h.locals.listed x hx e he v hv
  · rcases hnew v hv with hv | hnone
    · rw [part_eq (hs.variable_core hv) Variable.scope] at hx
      rw [localsOf, hlocals x ((h.closed.vars v hv).scope x hx)]
      exact h.locals.once v hv x hx
    · rw [hnone] at hx
      cases hx

/-- The store has the same scopes and functions as before, hanging together in the same way. -/
theorem Sound.of_extends (h : s.Sound) (hs : Extends free s s')
    (hscopes : s'.scopes.size = s.scopes.size) (hfunctions : s'.functions.size = s.functions.size)
    (hcopies : s'.importedFunctions = s.importedFunctions) (hchildren : ∀ x : ScopeId, s.Owns x →
      (s'.scopeAt x).children = (s.scopeAt x).children) (hclosed : s'.Closed)
    (hlocals : s'.ListsLocals) : s'.Sound := by
  have hscope : ∀ x : ScopeId, s'.Owns x → s.Owns x :=
    fun x hx => by rwa [owns_scope_iff, hscopes] at hx
  have hfunction (x : ScopeId) (hx : s.Owns x) := part_eq (hs.scope_shape hx) Scope.function
  have hmain (f : FunctionId) (hf : s.Owns f) := part_eq (hs.function_core hf) Function.mainScope
  refine ⟨hclosed, ⟨fun x hx => ?_, fun p x hp hx => ?_, fun p hp => ?_⟩, hlocals,
    ⟨fun f hf => ?_, fun x hx hnone => ?_, fun x hx hcopy => ?_⟩⟩
  · rw [hs.parent_eq (hscope x hx)]
    exact h.forest.parent_lt x (hscope x hx)
  · rw [hchildren p (hscope p hp), hs.parent_eq (hscope x hx)]
    exact h.forest.mem_children p x (hscope p hp) (hscope x hx)
  · rw [hchildren p (hscope p hp)]
    exact h.forest.nodup p (hscope p hp)
  · rw [owns_function_iff, hfunctions] at hf
    rw [hmain f hf, hfunction _ (h.mainScope_owned hf)]
    exact h.rooted.main f hf
  · have hf := h.function_owned (hscope x hx)
    rw [hs.parent_eq (hscope x hx)] at hnone
    rw [hfunction x (hscope x hx), hmain _ hf, part_eq (hs.function_core hf) Function.parent]
    exact h.rooted.outermost x (hscope x hx) hnone
  · rw [hfunction x (hscope x hx), hcopies] at hcopy
    rw [hchildren x (hscope x hx)]
    exact h.rooted.copies x (hscope x hx) hcopy

end Unchanged

/-! ## Changes of single symbols -/

theorem owns_addReference (s : Store) : (s.addReference r).1.Owns (s.addReference r).2 := by
  change s.references.size < (s.references.push r).size
  simp

theorem owns_addVariable_iff {v : Variable} :
    (s.addVariable v).1.Owns u ↔ s.Owns u ∨ u.index = s.vars.size := by
  rw [owns_variable_iff, owns_variable_iff, addVariable, Array.size_push]
  exact Nat.lt_succ_iff_lt_or_eq

theorem Sound.passes_modifyReference (h : s.Sound) {f : Reference → Reference} :
    s.Passes (s.modifyReference id f) where
  sound :=
    { closed := h.closed.of_retains s.retains_modifyReference (fun _ hx => .inl ⟨hx, rfl⟩)
        (fun _ hv => .inl ⟨hv, rfl⟩) (fun _ hf => .inl ⟨hf, rfl⟩) (fun _ => .inl) rfl
      forest := ⟨h.forest.parent_lt, h.forest.mem_children, h.forest.nodup⟩
      locals := ⟨h.locals.listed, h.locals.once⟩
      rooted := ⟨h.rooted.main, h.rooted.outermost, h.rooted.copies⟩ }
  retains := s.retains_modifyReference

/-! ## New scopes -/

/-- The second store has one more scope, the last child of its parent. -/
structure Gains (s t : Store) (kind : ScopeKind) (parent : Option ScopeId) (function : FunctionId)
    (range : TextRange) : Prop where
  retains : s.Retains t
  size : t.scopes.size = s.scopes.size + 1
  scopeAt : ∀ x, t.scopeAt x =
    if x.index = s.scopes.size then { kind, parent, function, range }
    else if x ∈ parent then
      { s.scopeAt x with children := (s.scopeAt x).children ++ [⟨s.scopes.size⟩] }
    else s.scopeAt x
  vars : t.vars = s.vars
  functionAt : ∀ f, s.Owns f → t.functionAt f = s.functionAt f
  variableCopies : t.importedVariables = s.importedVariables
  functionCopies : t.importedFunctions = s.importedFunctions

section Gains

variable {t : Store} {kind : ScopeKind} {parent : Option ScopeId} {function : FunctionId}
  {range : TextRange}

theorem gains_addScope (hparent : s.Owns parent) :
    Gains s (s.addScope kind parent function range).1 kind parent function range where
  retains := retains_of_within (within_addScope (fun _ => True) s hparent fun _ _ => trivial)
    (importedFunctions_addScope ..)
  size := size_scopes_addScope ..
  scopeAt := scopeAt_addScope s kind parent function range hparent
  vars := vars_addScope ..
  functionAt f _ := by rw [Store.functionAt, Store.functionAt, functions_addScope]
  variableCopies := importedVariables_addScope ..
  functionCopies := importedFunctions_addScope ..

namespace Gains

variable (hg : Gains s t kind parent function range)

include hg

theorem owns_iff : t.Owns x ↔ s.Owns x ∨ x.index = s.scopes.size := by
  rw [owns_scope_iff, owns_scope_iff, hg.size]
  exact Nat.lt_succ_iff_lt_or_eq

theorem parent_eq :
    (t.scopeAt x).parent = if x.index = s.scopes.size then parent else (s.scopeAt x).parent := by
  rw [hg.scopeAt]
  split
  · rfl
  · split <;> rfl

theorem children_eq : (t.scopeAt x).children = if x.index = s.scopes.size then []
      else if x ∈ parent then (s.scopeAt x).children ++
        [⟨s.scopes.size⟩] else (s.scopeAt x).children := by
  rw [hg.scopeAt]
  split
  · rfl
  · split <;> rfl

theorem mem_children (h : s.IsForest) (hparent : s.Owns parent)
    (hchildren : ∀ x : ScopeId, s.Owns x → s.Owns (s.scopeAt x).children) (p x : ScopeId)
    (hp : t.Owns p) (hx : t.Owns x) :
    x ∈ (t.scopeAt p).children ↔ (t.scopeAt x).parent = some p := by
  rw [hg.children_eq, hg.parent_eq]
  rcases hg.owns_iff.1 hp with hp | hp
  · rw [if_neg (Nat.ne_of_lt hp)]
    rcases hg.owns_iff.1 hx with hx | hx
    · have hne : x ≠ ⟨s.scopes.size⟩ := fun heq => Nat.lt_irrefl _ (heq ▸ hx)
      rw [if_neg (Nat.ne_of_lt hx), ← h.mem_children p x hp hx]
      split
      · rw [mem_append, mem_singleton, or_iff_left hne]
      · exact Iff.rfl
    · obtain rfl : x = ⟨s.scopes.size⟩ := by cases x; simp_all
      rw [if_pos rfl]
      split
      · next hpar => simpa using hpar
      · next hpar =>
        have hfresh : (⟨s.scopes.size⟩ : ScopeId) ∉ (s.scopeAt p).children := fun hmem =>
          Nat.lt_irrefl _ (hchildren p hp _ hmem)
        exact ⟨fun hmem => absurd hmem hfresh, fun heq => absurd heq hpar⟩
  · -- The new scope is nobody's parent.
    rw [if_pos hp]
    refine ⟨nofun, fun heq => ?_⟩
    have hlt : p.index < s.scopes.size := by
      split at heq
      · exact hparent p heq
      · next hne =>
        have hx := (hg.owns_iff.1 hx).resolve_right hne
        exact Nat.lt_trans (h.parent_lt x hx p heq) hx
    omega

theorem nodup (h : s.IsForest) (hchildren : ∀ x : ScopeId, s.Owns x → s.Owns (s.scopeAt x).children)
    (p : ScopeId) (hp : t.Owns p) : (t.scopeAt p).children.Nodup := by
  rw [hg.children_eq]
  split
  · exact nodup_nil
  · next hne =>
    have hp := (hg.owns_iff.1 hp).resolve_right hne
    split
    · refine nodup_append.2 ⟨h.nodup p hp, by simp, fun a ha b hb heq => ?_⟩
      rw [mem_singleton.1 hb] at heq
      exact Nat.lt_irrefl _ (hchildren p hp _ (heq ▸ ha))
    · exact h.nodup p hp

theorem forest (h : s.IsForest) (hparent : s.Owns parent)
    (hchildren : ∀ x : ScopeId, s.Owns x → s.Owns (s.scopeAt x).children) : t.IsForest where
  parent_lt x hx p hp := by
    rw [hg.parent_eq] at hp
    split at hp
    · next hnew => exact hnew ▸ hparent p hp
    · next hne => exact h.parent_lt x ((hg.owns_iff.1 hx).resolve_right hne) p hp
  mem_children := hg.mem_children h hparent hchildren
  nodup := hg.nodup h hchildren

theorem locals (h : s.ListsLocals)
    (hscopes : ∀ v : VariableId, s.Owns v → s.Owns (s.variableAt v).scope) :
    t.ListsLocals := by
  have hvar : ∀ v, t.variableAt v = s.variableAt v :=
    fun v => by rw [variableAt, variableAt, hg.vars]
  have hold : ∀ x : ScopeId, s.Owns x → (t.scopeAt x).locals = (s.scopeAt x).locals := by
    intro x hx
    rw [hg.scopeAt, if_neg (Nat.ne_of_lt hx)]
    split <;> rfl
  refine ⟨fun x hx e he v hv => ?_, fun v hv x hx => ?_⟩
  · rcases hg.owns_iff.1 hx with hx | hx
    · rw [hold x hx] at he
      rw [hvar]
      exact h.listed x hx e he v hv
    · rw [hg.scopeAt, if_pos hx] at he
      cases he
  · rw [owns_variable_iff, hg.vars] at hv
    rw [hvar] at hx
    rw [localsOf, hold x (hscopes v hv x hx)]
    exact h.once v hv x hx

theorem scopes (h : ∀ x : ScopeId, s.Owns x → s.Owns (s.scopeAt x)) (hparent : s.Owns parent)
    (hfunction : t.Owns function) (x : ScopeId) (hx : t.Owns x) : t.Owns (t.scopeAt x) := by
  rw [hg.scopeAt]
  split
  · exact ⟨hg.retains.owns hparent, owns_nil, hfunction, owns_empty, owns_empty, owns_empty⟩
  · next hne =>
    have hold := hg.retains.owns (h x ((hg.owns_iff.1 hx).resolve_right hne))
    split
    · have hnew : t.Owns (⟨s.scopes.size⟩ : ScopeId) := hg.owns_iff.2 (.inr rfl)
      exact { hold with children := hold.children.snoc hnew }
    · exact hold

theorem closed (h : s.Closed) (hparent : s.Owns parent) (hfunction : t.Owns function)
    (hfunctions : ∀ f : FunctionId, t.Owns f → s.Owns f ∨ t.Owns (t.functionAt f)) : t.Closed := by
  refine h.of_retains hg.retains (fun x hx => .inr (hg.scopes h.scopes hparent hfunction x hx))
    (fun v hv => .inl ?_)
    (fun f hf => (hfunctions f hf).imp_left fun hf => ⟨hf, hg.functionAt f hf⟩)
    (fun v hv => .inl ?_) hg.functionCopies
  · rw [owns_variable_iff, hg.vars] at hv
    exact ⟨hv, by rw [variableAt, variableAt, hg.vars]⟩
  · rwa [hg.variableCopies] at hv

theorem copies (h : s.Rooted)
    (horiginal : ∀ p ∈ parent, (s.scopeAt p).function ∉ s.importedFunctions.values)
    (x : ScopeId) (hx : t.Owns x) (hcopy : (t.scopeAt x).function ∈ t.importedFunctions.values) :
    (t.scopeAt x).children = [] := by
  rw [hg.functionCopies] at hcopy
  rw [hg.children_eq]
  split
  · rfl
  · next hne =>
    have hx := (hg.owns_iff.1 hx).resolve_right hne
    rw [hg.retains.function_eq x hx] at hcopy
    split
    · next hxp => exact absurd hcopy (horiginal x hxp)
    · exact h.copies x hx hcopy

theorem main (h : s.Sound) (hf : s.Owns f) :
    (t.scopeAt (t.functionAt f).mainScope).function = f := by
  rw [hg.functionAt f hf, hg.retains.function_eq _ (h.mainScope_owned hf)]
  exact h.rooted.main f hf

theorem outermost (h : s.Sound) (hx : s.Owns x) (hnone : (t.scopeAt x).parent = none) :
    (t.functionAt (t.scopeAt x).function).mainScope = x ∧
    (t.functionAt (t.scopeAt x).function).parent = none := by
  rw [hg.parent_eq, if_neg (Nat.ne_of_lt hx)] at hnone
  rw [hg.retains.function_eq x hx, hg.functionAt _ (h.function_owned hx)]
  exact h.rooted.outermost x hx hnone

theorem sound (h : s.Sound) (hparent : s.Owns parent) (hfunction : t.Owns function)
    (horiginal : ∀ p ∈ parent, (s.scopeAt p).function ∉ s.importedFunctions.values)
    (hfunctions : ∀ f : FunctionId, t.Owns f →
      s.Owns f ∨ t.Owns (t.functionAt f) ∧ (t.scopeAt (t.functionAt f).mainScope).function = f)
    (hnew : parent = none → (t.functionAt function).mainScope = ⟨s.scopes.size⟩ ∧
      (t.functionAt function).parent = none) : t.Sound where
  closed := hg.closed h.closed hparent hfunction fun f hf => (hfunctions f hf).imp_right And.left
  forest := hg.forest h.forest hparent fun x hx => (h.closed.scopes x hx).children
  locals := hg.locals h.locals fun v hv => (h.closed.vars v hv).scope
  rooted :=
    { main := fun f hf => (hfunctions f hf).elim (hg.main h) And.right
      outermost := fun x hx hnone => by
        rcases hg.owns_iff.1 hx with hx | hx
        · exact hg.outermost h hx hnone
        · obtain rfl : x = ⟨s.scopes.size⟩ := by cases x; simp_all
          rw [hg.parent_eq, if_pos rfl] at hnone
          rw [hg.scopeAt, if_pos rfl]
          exact hnew hnone
      copies := hg.copies h.rooted horiginal }

end Gains

end Gains

theorem Sound.passes_addScope (h : s.Sound) {kind : ScopeKind} {p : ScopeId} {function : FunctionId}
    {range : TextRange} (hp : s.Owns p) (hfunction : s.Owns function)
    (horiginal : (s.scopeAt p).function ∉ s.importedFunctions.values) :
    s.Passes (s.addScope kind (some p) function range).1 := by
  have hg : Gains s (s.addScope kind (some p) function range).1 kind (some p) function range :=
    gains_addScope (owns_some.2 hp)
  refine ⟨hg.sound h (owns_some.2 hp) (hg.retains.owns hfunction) ?_ (fun f hf => .inl ?_) nofun,
    hg.retains⟩
  · rintro _ ⟨⟩
    exact horiginal
  · rwa [owns_function_iff, functions_addScope] at hf

/-! ## New functions -/

section AddFunction

variable {spec : FunctionSpec}

theorem gains_addFunction (hparent : s.Owns spec.parentScope) :
    Gains s (s.addFunction spec).1 .function spec.parentScope ⟨s.functions.size⟩ spec.range where
  retains := .of_extends (extends_addFunction (fun _ => True) s spec hparent fun _ _ => trivial)
    fun _ _ hf => importedFunctions_addFunction s spec ▸ hf
  size := size_scopes_addFunction ..
  scopeAt := scopeAt_addFunction s spec hparent
  vars := vars_addFunction ..
  functionAt _ hf := functionAt_addFunction s spec hf
  variableCopies := importedVariables_addFunction ..
  functionCopies := importedFunctions_addFunction ..

theorem owns_addFunction_iff : (s.addFunction spec).1.Owns f ↔ s.Owns f ∨
    f.index = s.functions.size := by
  rw [owns_function_iff, owns_function_iff, size_functions_addFunction]
  exact Nat.lt_succ_iff_lt_or_eq

theorem Sound.passes_addFunction (h : s.Sound) (hfunction : s.Owns spec.parent)
    (hparent : s.Owns spec.parentScope) (halone : spec.parentScope = none → spec.parent = none)
    (horiginal : ∀ p ∈ spec.parentScope, (s.scopeAt p).function ∉ s.importedFunctions.values) :
    s.Passes (s.addFunction spec).1 := by
  have hg := gains_addFunction hparent
  have hnew : (s.addFunction spec).1.functionAt ⟨s.functions.size⟩ = _ :=
    functionAt_addFunction_new s spec
  refine ⟨hg.sound h hparent (owns_addFunction_iff.2 (.inr rfl)) horiginal (fun f hf => ?_)
    fun hnone => ?_, hg.retains⟩
  · refine (owns_addFunction_iff.1 hf).imp_right fun heq => ?_
    obtain rfl : f = ⟨s.functions.size⟩ := by cases f; simp_all
    rw [hnew, hg.scopeAt, if_pos rfl]
    exact ⟨⟨hg.retains.owns hfunction, hg.owns_iff.2 (.inr rfl), owns_none, owns_nil, owns_empty,
      owns_nil⟩, rfl⟩
  · rw [hnew]
    exact ⟨rfl, halone hnone⟩

end AddFunction

/-! ## Declarations -/

section Declared

variable {scope : ScopeId} {v : Variable}

theorem count_flatten_alter {name : String} {v : VariableId} :
    (m.alter name fun vs => vs.getD [] ++ [v]).values.flatten.count u =
      m.values.flatten.count u + if u = v then 1 else 0 := by
  obtain ⟨es⟩ := m
  simp only [OrderedMap.alter, OrderedMap.insert, OrderedMap.get?, OrderedMap.values]
  have hone : [v].count u = if u = v then 1 else 0 := by
    by_cases huv : u = v
    · simp [huv]
    · simp [huv, Ne.symm huv]
  induction es with
  | nil => simp [OrderedMap.put, OrderedMap.find?, hone]
  | cons e es ih =>
    obtain ⟨k, vs⟩ := e
    by_cases hk : k = name
    · simp only [OrderedMap.put, OrderedMap.find?, hk, if_true, Option.getD_some, map_cons,
        flatten_cons, count_append, hone]
      omega
    · simp only [OrderedMap.put, OrderedMap.find?, hk, if_false, map_cons, flatten_cons,
        count_append, ih]
      omega

theorem mem_entries_alter {name : String} {v : VariableId}
    (he : e ∈ (m.alter name fun vs => vs.getD [] ++ [v]).entries) (hu : u ∈ e.2) :
    u = v ∧ e.1 = name ∨ ∃ e' ∈ m.entries, e'.1 = e.1 ∧ u ∈ e'.2 := by
  rcases OrderedMap.mem_put he with rfl | he
  · rcases mem_append.1 hu with hu | hu
    · cases hget : m.get? name with
      | none =>
        rw [hget] at hu
        cases hu
      | some vs =>
        rw [hget] at hu
        exact .inr ⟨(name, vs), OrderedMap.mem_of_find? hget, rfl, hu⟩
    · exact .inl ⟨mem_singleton.1 hu, rfl⟩
  · exact .inr ⟨e, he, rfl, hu⟩

theorem owns_declared_iff : (s.declared scope v).Owns u ↔ s.Owns u ∨ u.index = s.vars.size := by
  rw [owns_variable_iff, owns_variable_iff, size_vars_declared]
  exact Nat.lt_succ_iff_lt_or_eq

theorem count_localsOf_declared (hscope : s.Owns scope) :
    ((s.declared scope v).localsOf x).count u =
      (s.localsOf x).count u + if scope = x ∧ u = ⟨s.vars.size⟩ then 1 else 0 := by
  rw [localsOf, scopeAt_declared]
  by_cases hat : scope = x
  · subst hat
    rw [if_pos ⟨rfl, hscope⟩, count_flatten_alter]
    simp [localsOf]
  · have hne : ¬ scope.index = x.index := fun heq => hat (by cases scope; cases x; simp_all)
    rw [if_neg fun hx => hne hx.1, if_neg fun hx => hat hx.1, Nat.add_zero]
    rfl

theorem variableAt_declared_of_owns (hu : s.Owns u) :
    (s.declared scope v).variableAt u = s.variableAt u := by
  rw [variableAt_declared, if_neg (Nat.ne_of_lt hu)]

theorem Sound.listed_declared (h : s.Sound) (hx : s.Owns x) :
    ∀ e ∈ ((s.declared scope v).scopeAt x).locals.entries, ∀ u ∈ e.2,
      ((s.declared scope v).variableAt u).scope = some x ∧
      ((s.declared scope v).variableAt u).name = e.1 := by
  intro e he u hu
  have hlisted : ∀ e' ∈ (s.scopeAt x).locals.entries, e'.1 = e.1 → u ∈ e'.2 →
      ((s.declared scope v).variableAt u).scope = some x ∧
      ((s.declared scope v).variableAt u).name = e.1 := by
    intro e' he' hname hu'
    rw [variableAt_declared_of_owns (h.listed_owned he' hu'), ← hname]
    exact h.locals.listed x hx e' he' u hu'
  rw [scopeAt_declared] at he
  split at he
  · next hat =>
    obtain rfl : scope = x := by cases scope; cases x; simp_all
    rcases mem_entries_alter he hu with ⟨rfl, hname⟩ | ⟨e', he', hname, hu'⟩
    · rw [variableAt_declared, if_pos rfl]
      exact ⟨rfl, hname.symm⟩
    · exact hlisted e' he' hname hu'
  · exact hlisted e he rfl hu

theorem Sound.locals_declared (h : s.Sound) (hscope : s.Owns scope) :
    (s.declared scope v).ListsLocals := by
  refine ⟨fun x hx => h.listed_declared ?_, fun u hu x hx => ?_⟩
  · rwa [owns_scope_iff, size_scopes_declared] at hx
  · rw [count_localsOf_declared hscope]
    rcases owns_declared_iff.1 hu with hu | hu
    · rw [variableAt_declared_of_owns hu] at hx
      have hne : u ≠ ⟨s.vars.size⟩ := fun heq => Nat.lt_irrefl _ (heq ▸ hu)
      rw [if_neg fun hx => hne hx.2]
      exact h.locals.once u hu x hx
    · rw [variableAt_declared, if_pos hu] at hx
      obtain rfl : scope = x := Option.some.inj hx
      obtain rfl : u = ⟨s.vars.size⟩ := by cases u; simp_all
      have hnew : (⟨s.vars.size⟩ : VariableId) ∉ s.localsOf scope := by
        intro hmem
        obtain ⟨vs, hvs, hv⟩ := mem_flatten.1 hmem
        exact Nat.lt_irrefl _ (h.locals_owned vs hvs _ hv)
      rw [if_pos ⟨rfl, rfl⟩, count_eq_zero.2 hnew]

theorem Sound.passes_declared (h : s.Sound) (hscope : s.Owns scope) (hv : s.Owns v) :
    s.Passes (s.declared scope v) := by
  have hr : s.Retains (s.declared scope v) := retains_of_within (within_declared s scope v) rfl
  refine ⟨h.of_extends (within_declared s scope v).toExtends s.size_scopes_declared rfl rfl
    (fun x _ => ?_) ?_
    (h.locals_declared hscope), hr⟩
  · rw [scopeAt_declared]
    split <;> rfl
  refine h.closed.of_retains hr (fun x hx => .inr ?_) (fun u hu => ?_) (fun _ hf => .inl ⟨hf, rfl⟩)
    (fun _ => .inl) rfl
  · rw [owns_scope_iff, size_scopes_declared] at hx
    have hold := hr.owns (h.closed.scopes x hx)
    rw [scopeAt_declared]
    split
    · exact { hold with locals := hold.locals.alter_snoc (owns_declared_iff.2 (.inr rfl)) }
    · exact hold
  · rw [variableAt_declared]
    split
    · exact .inr { hr.owns hv with scope := owns_some.2 (hr.owns hscope) }
    · next hne => exact .inl ⟨(owns_declared_iff.1 hu).resolve_right hne, rfl⟩

end Declared

/-! ## Notes about copies -/

def noteVariable (s : Store) (key : FileId × VariableId) (copy : VariableId) : Store :=
  { s with importedVariables := s.importedVariables.insert key copy }

def noteFunction (s : Store) (key : FileId × FunctionId) (copy : FunctionId) : Store :=
  { s with importedFunctions := s.importedFunctions.insert key copy }

theorem includes_noteFunction {key : FileId × FunctionId} : s.Includes (s.noteFunction key copy) :=
  ⟨Nat.le_refl _, Nat.le_refl _, Nat.le_refl _, Nat.le_refl _, fun _ _ => rfl⟩

theorem Retains.noteFunction (h : s.Retains s') (key : FileId × FunctionId)
    (hnew : s.functions.size ≤ copy.index) : s.Retains (s'.noteFunction key copy) := by
  refine ⟨⟨h.scopes, h.vars, h.functions, h.references, h.scope_eq⟩, h.function_eq,
    fun f hf hcopy => ?_⟩
  rcases OrderedMap.mem_values_insert hcopy with rfl | hcopy
  · exact absurd hf (Nat.not_lt.2 hnew)
  · exact h.originals f hf hcopy

theorem Sound.noteFunction (h : s.Sound) (key : FileId × FunctionId) (hcopy : s.Owns copy)
    (hempty : ∀ x : ScopeId, s.Owns x → (s.scopeAt x).function = copy →
      (s.scopeAt x).children = []) : (s.noteFunction key copy).Sound := by
  have hi : s.Includes (s.noteFunction key copy) := includes_noteFunction
  refine
    { closed := ⟨fun x hx => hi.owns (h.closed.scopes x hx),
        fun v hv => hi.owns (h.closed.vars v hv), fun f hf => hi.owns (h.closed.functions f hf),
        h.closed.variableCopies, h.closed.functionCopies.insert hcopy⟩
      forest := ⟨h.forest.parent_lt, h.forest.mem_children, h.forest.nodup⟩
      locals := ⟨h.locals.listed, h.locals.once⟩
      rooted := ⟨h.rooted.main, h.rooted.outermost, fun x hx hmem => ?_⟩ }
  rcases OrderedMap.mem_values_insert hmem with heq | hmem
  · exact hempty x hx heq
  · exact h.rooted.copies x hx hmem

end LuaAnalysis.Store
