import LuaAnalysis.Proofs.Symbol.Import
import LuaAnalysis.Proofs.Symbol.Passes

/-!
# Copies keep a store sound

Numbers of one store mean nothing in another one. What is copied from a sound store gets numbers of
the store that it is copied to: a function loses its scopes, and the members of a copied variable
are copies too, since all that a variable reaches is copied before the members are linked.
-/

namespace LuaAnalysis.Store

open List

variable {s source : Store} {origin : FileId}
variable {v : VariableId} {pending todo : List VariableId} {members : OrderedMap String VariableId}
variable {load : LoadKind} {r : FileResult} {id : VariableId} {kind : ValueKind}

/-! ## Functions and references -/

theorem Sound.passes_withCopy (h : s.Sound) {key : FileId × FunctionId} {spec : FunctionSpec}
    (hparent : spec.parent = none) (hscope : spec.parentScope = none) {types : FunctionTypes} :
    s.Passes (s.withCopy key spec types) ∧
    (s.withCopy key spec types).Owns (⟨s.functions.size⟩ : FunctionId) := by
  have hadd : s.Passes (s.addFunction spec).1 :=
    h.passes_addFunction (by simp [hparent, owns_none]) (by simp [hscope, owns_none])
    (fun _ => hparent) (by simp [hscope])
  have hnew : (s.addFunction spec).1.Owns (⟨s.functions.size⟩ : FunctionId) :=
    owns_addFunction_iff.2 (.inr rfl)
  have hadded := hadd.sound
  have hfun := hadded.closed.functions _ hnew
  have htypes :=
    hadded.passes_modifyFunction (f := ({ · with types })) (fun _ => rfl) { hfun with }
  have hpass := hadd.trans htypes
  -- The main scope of the copy is new, and all other scopes belong to functions that were there
  -- before.
  have hempty : ∀ x : ScopeId, (s.addFunction spec).1.Owns x →
      ((s.addFunction spec).1.scopeAt x).function = ⟨s.functions.size⟩ →
      ((s.addFunction spec).1.scopeAt x).children = [] := by
    intro x hx heq
    rw [scopeAt_addFunction s spec (by simp [hscope])] at heq ⊢
    split
    · rfl
    · next hne =>
      rw [owns_scope_iff, size_scopes_addFunction] at hx
      have hlt := h.function_owned (x := x) (owns_scope_iff.2 (by omega))
      rw [if_neg hne, if_neg (by simp [hscope])] at heq
      rw [heq] at hlt
      exact absurd hlt (Nat.lt_irrefl _)
  have hnoted := hpass.sound.noteFunction key (htypes.retains.owns hnew) hempty
  exact ⟨⟨hnoted, hpass.retains.noteFunction key (Nat.le_refl _)⟩, htypes.retains.owns hnew⟩

/-- The copy of a function is one of the store. -/
theorem Sound.passes_importFunction (h : s.Sound) {id : FunctionId} :
    s.Passes (s.importFunction source origin id).1 ∧
      (s.importFunction source origin id).1.Owns (s.importFunction source origin id).2 := by
  rw [importFunction]
  cases hcopy : s.importedFunctions.get? (origin, id) with
  | some copy =>
    exact ⟨h.passes_refl, h.closed.functionCopies copy (OrderedMap.mem_values_of_get? hcopy)⟩
  | none => exact h.passes_withCopy rfl rfl

theorem Sound.passes_importFunction? (h : s.Sound) {id : Option FunctionId} :
    s.Passes (s.importFunction? source origin id).1 ∧
      (s.importFunction? source origin id).1.Owns (s.importFunction? source origin id).2 := by
  cases id with
  | none => exact ⟨h.passes_refl, owns_none⟩
  | some id =>
    obtain ⟨hpass, hcopy⟩ := h.passes_importFunction
    exact ⟨hpass, owns_some.2 hcopy⟩

theorem Sound.passes_importReference? (h : s.Sound) {id : Option ReferenceId} :
    s.Passes (s.importReference? source id).1 ∧
      (s.importReference? source id).1.Owns (s.importReference? source id).2 := by
  cases id with
  | none => exact ⟨h.passes_refl, owns_none⟩
  | some id => exact ⟨h.passes_addReference, owns_some.2 s.owns_addReference⟩

/-! ## Variables -/

theorem isGlobal_addVariable {v : Variable} (hscope : v.scope = none) :
    (s.addVariable v).1.IsGlobal (s.addVariable v).2 := by
  refine ⟨owns_addVariable_iff.2 (.inr rfl), ?_⟩
  rw [variableAt_addVariable]
  exact (congrArg Variable.scope (if_pos rfl)).trans hscope

/-- A copy without members holds numbers of the new store only. -/
theorem Sound.passes_importBare (h : s.Sound) : s.Passes (s.importBare source origin id) := by
  obtain ⟨hfun, hfunction⟩ := h.passes_importFunction?
  obtain ⟨href, hreference⟩ := hfun.sound.passes_importReference?
  have hadd := href.sound.passes_addVariable (v :=
    { source.variableAt id with
      scope := none
      owner := none
      function := (s.importFunction? source origin (source.variableAt id).function).2
      reference :=
        ((s.importFunction? source origin (source.variableAt id).function).1.importReference? source
        (source.variableAt id).reference).2
      members := {}
      flags.used := false
      assignSites := [] })
    ⟨owns_none, owns_none, href.retains.owns hfunction, hreference, owns_empty⟩ rfl
  exact ((hfun.trans href).trans hadd).trans
    (hadd.sound.passes_noteVariable (isGlobal_addVariable rfl))

theorem Sound.isGlobal_importedCopy (h : s.Sound) (hkey : (origin, id) ∈ s.importedVariables.keys) :
    s.IsGlobal (s.importedCopy origin id) := by
  obtain ⟨copy, hcopy⟩ := Option.isSome_iff_exists.1 (OrderedMap.mem_keys_iff.1 hkey)
  rw [importedCopy, hcopy]
  exact h.closed.variableCopies copy (OrderedMap.mem_values_of_get? hcopy)

/-- Members can be linked once all of them have copies. -/
theorem Sound.passes_linkMembers (h : s.Sound) (hkey : (origin, id) ∈ s.importedVariables.keys)
    (hmembers : ∀ m ∈ (source.variableAt id).members.values,
      (origin, m) ∈ s.importedVariables.keys) : s.Passes (s.linkMembers source origin id) := by
  have hcopy := (h.isGlobal_importedCopy hkey).1
  refine h.passes_modifyVariable (fun _ => rfl)
    { h.closed.vars _ hcopy with members := fun v hv => ?_ }
  obtain ⟨_, hcopied, rfl⟩ := mem_map.1 hv
  obtain ⟨e, he, rfl⟩ := mem_map.1 hcopied
  exact (h.isGlobal_importedCopy (hmembers e.2 (mem_map.2 ⟨e, he, rfl⟩))).1

theorem Sound.passes_linkAll (h : s.Sound) {ids : List VariableId}
    (hkeys : ∀ v ∈ ids, (origin, v) ∈ s.importedVariables.keys ∧
      ∀ m ∈ (source.variableAt v).members.values, (origin, m) ∈ s.importedVariables.keys) :
    s.Passes (ids.foldl (fun s v => s.linkMembers source origin v) s) := by
  induction ids generalizing s with
  | nil => exact h.passes_refl
  | cons v ids ih =>
    rw [forall_mem_cons] at hkeys
    have hlink := h.passes_linkMembers hkeys.1.1 hkeys.1.2
    exact hlink.trans (ih hlink.sound hkeys.2)

/-! ## What a variable reaches -/

theorem mem_reached_of_todo (hv : v ∈ todo) (hpending : v ∈ pending) :
    v ∈ reached source pending todo := by
  fun_induction reached source pending todo with
  | case1 => cases hv
  | case2 pending u todo hu ih =>
    by_cases heq : v = u
    · exact mem_cons.2 (.inl heq)
    · have htodo := (mem_cons.1 hv).resolve_left heq
      exact mem_cons_of_mem u
        (ih (mem_append_right _ htodo) ((mem_erase_of_ne heq).2 hpending))
  | case3 pending u todo hu ih =>
    refine ih ((mem_cons.1 hv).resolve_left ?_) hpending
    rintro rfl
    exact hu hpending

/-- What is reached is closed under pending members. -/
theorem mem_reached_of_member {m : VariableId} (hv : v ∈ reached source pending todo)
    (hm : m ∈ (source.variableAt v).members.values) (hpending : m ∈ pending) :
    m ∈ reached source pending todo := by
  fun_induction reached source pending todo with
  | case1 => cases hv
  | case2 pending u todo hu ih =>
    by_cases heq : m = u
    · exact mem_cons.2 (.inl heq)
    · have hrest := (mem_erase_of_ne heq).2 hpending
      refine mem_cons_of_mem u ?_
      rcases mem_cons.1 hv with rfl | hv
      · exact mem_reached_of_todo (mem_append_left _ hm) hrest
      · exact ih hv hrest
  | case3 pending u todo hu ih => exact ih hv hpending

theorem mem_pendingImports_iff :
    v ∈ s.pendingImports source origin ↔ source.Owns v ∧
    (origin, v) ∉ s.importedVariables.keys := by
  rw [OrderedMap.mem_keys_iff]
  simp only [pendingImports, mem_filter, mem_map, mem_range, OrderedMap.contains]
  constructor
  · rintro ⟨⟨i, hi, rfl⟩, hnone⟩
    exact ⟨hi, by simpa using hnone⟩
  · rintro ⟨hv, hnone⟩
    exact ⟨⟨v.index, hv, rfl⟩, by simpa using hnone⟩

/-! ## Variables with all that they reach -/

/-- Every member of a reached variable has a copy when members are linked. -/
theorem Sound.passes_importVariable (h : s.Sound) (hsource : source.Sound) (hid : source.Owns id) :
    s.Passes (s.importVariable source origin id).1 ∧
      (s.importVariable source origin id).1.IsGlobal (s.importVariable source origin id).2 := by
  have hpass : s.Passes (s.importVariable source origin id).1 := by
    rw [importVariable]
    split
    · exact h.passes_refl
    · let order := reached source (s.pendingImports source origin) [id]
      have hbare : s.Passes (order.foldl (fun s v => s.importBare source origin v) s) :=
        h.passes_foldl fun s' hs' v _ => hs'.sound.passes_importBare
      refine hbare.trans (hbare.sound.passes_linkAll fun v hv => ?_)
      refine ⟨s.mem_keys_foldl_importBare source origin (.inl hv), fun m hm => ?_⟩
      refine s.mem_keys_foldl_importBare source origin ?_
      -- A member is copied along with the variable, unless it has a copy already.
      by_cases hcopied : (origin, m) ∈ s.importedVariables.keys
      · exact .inr hcopied
      · have hown := (hsource.variable_owned v).members m hm
        exact .inl (mem_reached_of_member hv hm (mem_pendingImports_iff.2 ⟨hown, hcopied⟩))
  refine ⟨hpass, ?_⟩
  exact hpass.sound.closed.variableCopies _
    (OrderedMap.mem_values_of_get? (s.get?_importVariable source origin hid))

theorem Sound.passes_importAll (h : s.Sound) (hsource : source.Sound)
    {vs : List (String × VariableId)} (hvs : ∀ e ∈ vs, source.Owns e.2) :
    s.Passes (s.importAll source origin vs).1 ∧
      ∀ e ∈ (s.importAll source origin vs).2, (s.importAll source origin vs).1.IsGlobal e.2 := by
  induction vs generalizing s with
  | nil => exact ⟨h.passes_refl, nofun⟩
  | cons v vs ih =>
    rw [forall_mem_cons] at hvs
    obtain ⟨hfirst, hcopy⟩ := h.passes_importVariable hsource hvs.1
    obtain ⟨hrest, hcopies⟩ := ih hfirst.sound hvs.2
    exact ⟨hfirst.trans hrest, forall_mem_cons.2 ⟨hrest.retains.toIncludes.isGlobal hcopy, hcopies⟩⟩

/-! ## Values of loads -/

/-- The variable that a file returns is one of its store. -/
theorem owns_of_returned (hr : s.Owns r) (h : ModuleShape.of? s load r = some (.returned v)) :
    s.Owns v := by
  have hvalue : s.Owns (r.returnValue.filter fun u => (s.variableAt u).kind ≠ .nil) :=
    fun u hu => hr.returnValue u (Option.filter_eq_some_iff.1 hu).1
  unfold ModuleShape.of? at h
  generalize (r.returnValue.filter fun u => (s.variableAt u).kind ≠ .nil) = value? at h hvalue
  cases value? with
  | none => split at h <;> cases h
  | some u => split at h <;> cases h <;> exact owns_some.1 hvalue

theorem Sound.passes_addModule (h : s.Sound) (hmembers : s.Owns members) :
    s.Passes (s.addVariable (r.moduleVariable kind members)).1 ∧
      (s.addVariable (r.moduleVariable kind members)).1.Owns
        (some (s.addVariable (r.moduleVariable kind members)).2) :=
  ⟨h.passes_addVariable ⟨owns_none, owns_none, owns_none, owns_none, hmembers⟩ rfl,
    owns_some.2 (isGlobal_addVariable rfl).1⟩

theorem Sound.passes_bindModule (h : s.Sound) (hr : s.Owns r) :
    s.Passes (s.bindModule load r).1 ∧ (s.bindModule load r).1.Owns (s.bindModule load r).2 := by
  rw [bindModule]
  split
  · exact ⟨h.passes_refl, owns_none⟩
  · next v hshape => exact ⟨h.passes_refl, owns_some.2 (owns_of_returned hr hshape)⟩
  · exact h.passes_addModule owns_empty
  · exact h.passes_addModule hr.globals.owns

theorem Sound.passes_importModule (h : s.Sound) {a : FileAnalysis} (hstore : a.store.Sound)
    (hr : a.store.Owns a.result) :
    s.Passes (s.importModule load a).1 ∧
    (s.importModule load a).1.Owns (s.importModule load a).2 := by
  rw [importModule]
  split
  · exact ⟨h.passes_refl, owns_none⟩
  · next v hshape =>
    obtain ⟨hpass, hcopy⟩ := h.passes_importVariable hstore (owns_of_returned hr hshape)
    exact ⟨hpass, owns_some.2 hcopy.1⟩
  · exact h.passes_addModule owns_empty
  · obtain ⟨hpass, hcopies⟩ :=
      h.passes_importAll hstore (fun e (he : e ∈ a.result.globals.entries) =>
      (hr.globals e.2 (mem_map.2 ⟨e, he, rfl⟩)).1)
    have hmembers : (s.importAll a.store a.result.file a.result.globals.entries).1.Owns
        (⟨(s.importAll a.store a.result.file a.result.globals.entries).2⟩ : OrderedMap String
          VariableId) := by
      intro v hv
      obtain ⟨e, he, rfl⟩ := mem_map.1 hv
      exact (hcopies e he).1
    obtain ⟨hadd, hnew⟩ := hpass.sound.passes_addModule hmembers
    exact ⟨hpass.trans hadd, hnew⟩

end LuaAnalysis.Store
