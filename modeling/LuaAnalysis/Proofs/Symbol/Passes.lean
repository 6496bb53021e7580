import LuaAnalysis.Proofs.Symbol.Sound

/-!
# Stores that stay sound

A change of single symbols that leaves scopes and functions where they are keeps a store sound
(`passes_of_within`), and so does a row of such changes.
-/

namespace LuaAnalysis.Store

variable {s : Store}
variable {scope : ScopeId}
variable {name : String} {id v : VariableId} {info : ValueInfo}

/-! ## Steps -/

namespace Sound

variable (h : s.Sound)

include h

/-- The scopes and functions hang together as before, and a symbol that is not as it was holds
numbers of the first store only. -/
theorem passes_of_within {s' : Store} (hs : Within (fun _ => False) s s')
    (hscopes : s'.scopes.size = s.scopes.size) (hfunctions : s'.functions.size = s.functions.size)
    (hcopies : s'.importedFunctions = s.importedFunctions)
    (hscope : ∀ x : ScopeId, s.Owns x → s'.scopeAt x = s.scopeAt x ∨ s.Owns (s'.scopeAt x))
    (hvar : ∀ v : VariableId, s'.Owns v → s.Owns v ∧ s'.variableAt v = s.variableAt v ∨
      s.Owns (s'.variableAt v) ∧ (s.Owns v ∨ (s'.variableAt v).scope = none))
    (hfunction : ∀ f : FunctionId, s.Owns f → s'.functionAt f = s.functionAt f ∨
      s.Owns (s'.functionAt f))
    (hglobals : ∀ v ∈ s'.importedVariables.values, v ∈ s.importedVariables.values ∨ s.IsGlobal v) :
    s.Passes s' := by
  have hr := retains_of_within hs hcopies
  refine ⟨h.of_extends hs.toExtends hscopes hfunctions hcopies (fun _ hx => hs.children_eq hx id) ?_
    (h.lists_of_extends hs.toExtends hscopes fun v hv =>
      (hvar v hv).elim (fun hold => .inl hold.1) And.right), hr⟩
  refine h.closed.of_retains hr (fun x hx => ?_)
    (fun v hv => (hvar v hv).imp_right fun hnew => hr.owns hnew.1)
    (fun f hf => ?_) (fun v hv => (hglobals v hv).imp_right hr.toIncludes.isGlobal) hcopies
  · rw [owns_scope_iff, hscopes] at hx
    exact (hscope x hx).imp (⟨hx, ·⟩) hr.owns
  · rw [owns_function_iff, hfunctions] at hf
    exact (hfunction f hf).imp (⟨hf, ·⟩) hr.owns

theorem passes_addVariable {v : Variable} (hv : s.Owns v) (hscope : v.scope = none) :
    s.Passes (s.addVariable v).1 := by
  refine h.passes_of_within (within_addVariable _ s) rfl rfl rfl (fun _ _ => .inl rfl)
    (fun u hu => ?_) (fun _ _ => .inl rfl) fun _ => .inl
  rw [variableAt_addVariable]
  rcases owns_addVariable_iff.1 hu with hu | hu
  · exact .inl ⟨hu, if_neg (Nat.ne_of_lt hu)⟩
  · rw [if_pos hu]
    exact .inr ⟨hv, .inr hscope⟩

theorem passes_addReference {r : Reference} : s.Passes (s.addReference r).1 :=
  h.passes_of_within (within_addReference _ s r) rfl rfl rfl (fun _ _ => .inl rfl)
    (fun _ hv => .inl ⟨hv, rfl⟩) (fun _ _ => .inl rfl) fun _ => .inl

/-- What identifies the variable stays, and what it holds is of the store. -/
theorem passes_modifyVariable {f : Variable → Variable}
    (hf : ∀ v, (f v).core = v.core) (hown : s.Owns (f (s.variableAt id))) :
    s.Passes (s.modifyVariable id f) := by
  refine h.passes_of_within (within_modifyVariable _ s hf) rfl rfl rfl (fun _ _ => .inl rfl)
    (fun u hu => ?_) (fun _ _ => .inl rfl) fun _ => .inl
  rw [owns_variable_iff, size_vars_modifyVariable] at hu
  rw [variableAt_modifyVariable]
  split
  · next heq =>
    obtain rfl : id = u := congrArg VariableId.mk heq.1
    exact .inr ⟨hown, .inl hu⟩
  · exact .inl ⟨hu, rfl⟩

theorem passes_modifyFunction {id : FunctionId} {f : Function → Function}
    (hf : ∀ g, (f g).core = g.core) (hown : s.Owns (f (s.functionAt id))) :
    s.Passes (s.modifyFunction id f) := by
  refine h.passes_of_within (within_modifyFunction _ s hf) rfl (by simp) rfl
    (fun _ _ => .inl rfl) (fun _ hv => .inl ⟨hv, rfl⟩) (fun g _ => ?_) fun _ => .inl
  rw [functionAt_modifyFunction]
  split
  · next heq =>
    obtain rfl : id = g := congrArg FunctionId.mk heq.1
    exact .inr hown
  · exact .inl rfl

theorem passes_modifyScope {id : ScopeId} {f : Scope → Scope}
    (hf : ∀ x, (f x).core = x.core) (hown : s.Owns (f (s.scopeAt id))) :
    s.Passes (s.modifyScope id f) := by
  refine h.passes_of_within (within_modifyScope _ s id hf) (by simp) rfl rfl (fun x _ => ?_)
    (fun _ hv => .inl ⟨hv, rfl⟩) (fun _ _ => .inl rfl) fun _ => .inl
  rw [scopeAt_modifyScope]
  split
  · next heq =>
    obtain rfl : id = x := congrArg ScopeId.mk heq.1
    exact .inr hown
  · exact .inl rfl

theorem passes_noteVariable {key : FileId × VariableId} {copy : VariableId}
    (hcopy : s.IsGlobal copy) : s.Passes (s.noteVariable key copy) := by
  have hs : Within (fun _ => False) s (s.noteVariable key copy) :=
    within_of_scopes rfl .refl .refl .refl rfl rfl
  refine h.passes_of_within hs rfl rfl rfl (fun _ _ => .inl rfl)
    (fun _ hv => .inl ⟨hv, rfl⟩) (fun _ _ => .inl rfl) fun v hv => ?_
  rcases OrderedMap.mem_values_insert hv with rfl | hold
  · exact .inr hcopy
  · exact .inl hold

end Sound

/-- Sound steps one after another. -/
theorem Sound.passes_foldl {α : Type} {f : Store → α → Store} {xs : List α} (hs : s.Sound)
    (hf : ∀ s' : Store, s.Passes s' → ∀ a ∈ xs, s'.Passes (f s' a)) : s.Passes (xs.foldl f s) := by
  have hall : ∀ s' : Store, s.Passes s' → ∀ ys : List α, (∀ a ∈ ys, a ∈ xs) →
      s.Passes (ys.foldl f s') := by
    intro s' hs' ys hys
    induction ys generalizing s' with
    | nil => exact hs'
    | cons a ys ih =>
      rw [List.forall_mem_cons] at hys
      exact ih (f s' a) (hs'.trans (hf s' hs' a hys.1)) hys.2
  exact hall s hs.passes_refl xs fun _ ha => ha

/-! ## Looking up -/

namespace Sound

variable (h : s.Sound)

include h

/-- The scopes around a scope of the store. -/
theorem ancestors_owned {x : ScopeId} (hx : s.Owns x) : s.Owns (s.ancestors x) := by
  induction x using ancestors.induct with
  | _ x ih =>
    rw [ancestors]
    refine owns_cons.2 ⟨hx, ?_⟩
    split
    · next p hp =>
      split
      · next hlt => exact ih p hlt ((h.closed.scopes x hx).parent p hp)
      · exact owns_nil
    · exact owns_nil

theorem lookupLocal?_owned : s.Owns (s.lookupLocal? scope name) := by
  intro v hv
  obtain ⟨x, -, hx⟩ := List.exists_of_findSome?_eq_some hv
  obtain ⟨vs, hvs, hlast⟩ := Option.bind_eq_some_iff.1 hx
  exact h.locals_owned.get? vs hvs v (List.mem_of_getLast? hlast)

theorem memberOf?_owned {owner : VariableId} : s.Owns (s.memberOf? owner name) :=
  (h.variable_owned owner).members.get?

theorem memberAlong?_owned {owner : Option VariableId} (howner : s.Owns owner)
    {path : List String} : s.Owns (s.memberAlong? owner path) := by
  induction path generalizing owner with
  | nil => exact howner
  | cons name path ih =>
    refine ih fun v hv => ?_
    obtain ⟨u, -, hu⟩ := Option.bind_eq_some_iff.1 hv
    exact h.memberOf?_owned v hu

theorem infoOf_owned (hv : s.Owns v) : s.Owns (s.infoOf v) :=
  ⟨owns_some.2 hv, (h.variable_owned v).function, (h.variable_owned v).reference⟩

theorem variableFrom_owned (hinfo : s.Owns info) (name : String) (file : FileId)
    (range : TextRange) : s.Owns (s.variableFrom name file range info) := by
  unfold variableFrom
  cases info.var with
  | none => exact ⟨owns_none, owns_none, hinfo.function, hinfo.reference, owns_empty⟩
  | some held =>
    have hheld := h.variable_owned held
    exact ⟨owns_none, owns_none, hinfo.function.orElse hheld.function,
      hinfo.reference.orElse hheld.reference, hheld.members⟩

end Sound

theorem scope_variableFrom (s : Store) (name : String) (file : FileId) (range : TextRange)
    (info : ValueInfo) : (s.variableFrom name file range info).scope = none := by
  unfold variableFrom
  split <;> rfl

/-! ## Values and narrowing -/

namespace Sound

variable (h : s.Sound)

include h

theorem passes_reassign (hinfo : s.Owns info) :
    s.Passes (s.reassign id info) := by
  have hheld : ∀ members : OrderedMap String VariableId, s.Owns members →
      s.Owns ((((info.var.filter (· ≠ id)).map s.variableAt).map (·.members)).getD members) := by
    intro members hmembers
    cases info.var.filter (· ≠ id) with
    | none => exact hmembers
    | some held => exact (h.variable_owned held).members
  have hv := h.variable_owned id
  refine h.passes_modifyVariable (fun v => ?_) ?_
  · dsimp only
    split <;> rfl
  · dsimp only
    split
    · exact ⟨hv.scope, hv.owner, hv.function.orElse hinfo.function,
        hinfo.reference.orElse hv.reference, hheld _ hv.members⟩
    · exact ⟨hv.scope, hv.owner, hv.function.orElse hinfo.function,
        hinfo.reference.orElse hv.reference, hv.members⟩

theorem passes_narrow (hscope : s.Owns scope) (hv : s.Owns v) :
    s.Passes (s.narrow scope name v) := by
  have hx := h.closed.scopes scope hscope
  exact h.passes_modifyScope (fun _ => rfl) { hx with narrowed := hx.narrowed.insert hv }

/-- Narrowing several names in one scope. -/
theorem passes_narrowAll (hscope : s.Owns scope) {proven : List (String × VariableId)}
    (hproven : ∀ e ∈ proven, s.Owns e.2) :
    s.Passes (proven.foldl (fun s (name, v) => s.narrow scope name v) s) :=
  h.passes_foldl fun _ hpass e he =>
    hpass.sound.passes_narrow (hpass.retains.owns hscope) (hpass.retains.owns (hproven e he))

theorem passes_clearNarrowing (hscope : s.Owns scope) : s.Passes (s.clearNarrowing scope name) := by
  refine h.passes_foldl fun s' hpass id hid => ?_
  have hown : s'.Owns id :=
    hpass.retains.owns (h.ancestors_owned hscope id ((List.takeWhile_sublist _).mem hid))
  have hx := hpass.sound.closed.scopes id hown
  exact hpass.sound.passes_modifyScope (fun _ => rfl) { hx with narrowed := hx.narrowed.erase }

end Sound

end LuaAnalysis.Store
