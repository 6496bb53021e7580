import LuaAnalysis.Proofs.OrderedMap
import LuaAnalysis.Walk.Value

/-!
# Stores only grow

A symbol that a store holds keeps its number, and the parts of it that identify it (`core`) never
change. `Extends free` says this of two stores: scopes keep their locals and children too, except
those in `free`, where declarations and new scopes may have been added. Every operation on stores
has one lemma here, and the rest of the theory composes them.
-/

namespace LuaAnalysis

open List

/-! ## What never changes -/

def Scope.core (x : Scope) : Scope :=
  { x with narrowed := {}, chainNarrowed := {} }

def Scope.shape (x : Scope) : Scope :=
  { x with narrowed := {}, chainNarrowed := {}, locals := {}, children := [] }

def Variable.core (v : Variable) : Variable :=
  { v with
    kind := .unknown
    function := none
    reference := none
    members := {}
    flags.used := false
    flags.declaredEmpty := false
    assignSites := [] }

def Function.core (f : Function) : Function :=
  { f with
    scopeDepth := 0
    types := {}
    colonVariable := none
    returns := []
    labels := {}
    pendingGotos := [] }

def Function.jumps (f : Function) : Function :=
  { f with scopeDepth := 0, types := {}, colonVariable := none, returns := [] }

def Reference.core (r : Reference) : Reference :=
  { r with binding := .unbound }

/-- What a view of values leaves alone is the same in values that it does not tell apart. -/
theorem part_eq {α β : Type} {view : α → α} {x y : α} (h : view x = view y) (part : α → β)
    (hpart : ∀ z, part (view z) = part z := by exact fun _ => rfl) : part x = part y := by
  rw [← hpart x, h, hpart]

variable {v u : Variable} {f g : Function} {s s' : Store} {free : ScopeId → Prop} {scope : ScopeId}
variable {name : String} {i : VariableId}

namespace Store

/-! ## Reading after writing -/

theorem getD_modify {α : Type} {xs : Array α} {i j : Nat} {f : α → α} {d : α} :
    (xs.modify i f).getD j d = if i = j ∧ j < xs.size then f (xs.getD j d) else xs.getD j d := by
  simp only [Array.getD_eq_getD_getElem?, Array.getElem?_modify]
  by_cases hij : i = j
  · subst hij
    by_cases hi : i < xs.size
    · simp [hi]
    · simp [hi]
  · simp [hij]

theorem getD_push {α : Type} (xs : Array α) (a : α) (j : Nat) (d : α) :
    (xs.push a).getD j d = if j = xs.size then a else xs.getD j d := by
  simp only [Array.getD_eq_getD_getElem?, Array.getElem?_push]
  split <;> simp

theorem scopeAt_modifyScope (s : Store) (id i : ScopeId) (f : Scope → Scope) :
    (s.modifyScope id f).scopeAt i =
      if id.index = i.index ∧ i.index < s.scopes.size then f (s.scopeAt i) else s.scopeAt i :=
  getD_modify

theorem variableAt_modifyVariable (s : Store) (id i : VariableId) (f : Variable → Variable) :
    (s.modifyVariable id f).variableAt i =
      if id.index = i.index ∧ i.index < s.vars.size then f (s.variableAt i) else s.variableAt i :=
  getD_modify

theorem functionAt_modifyFunction (s : Store) (id i : FunctionId) (f : Function → Function) :
    (s.modifyFunction id f).functionAt i =
      if id.index = i.index ∧
      i.index < s.functions.size then f (s.functionAt i) else s.functionAt i :=
  getD_modify

theorem variableAt_addVariable (s : Store) :
    (s.addVariable v).1.variableAt i = if i.index = s.vars.size then v else s.variableAt i :=
  getD_push s.vars v i.index default

theorem referenceAt_addReference (s : Store) (r : Reference) (i : ReferenceId) :
    (s.addReference r).1.referenceAt i = if i.index =
      s.references.size then r else s.referenceAt i :=
  getD_push s.references r i.index default

@[simp] theorem size_scopes_modifyScope {id : ScopeId} {f : Scope → Scope} :
    (s.modifyScope id f).scopes.size = s.scopes.size :=
  Array.size_modify

@[simp] theorem size_vars_modifyVariable {id : VariableId} {f : Variable → Variable} :
    (s.modifyVariable id f).vars.size = s.vars.size :=
  Array.size_modify

@[simp] theorem size_functions_modifyFunction {id : FunctionId} {f : Function → Function} :
    (s.modifyFunction id f).functions.size = s.functions.size :=
  Array.size_modify

end Store

/-! ## Growth of one array -/

/-- An array that has kept its entries up to `core`, and may have got more of them. -/
structure Grows {α : Type} [Inhabited α] (core : α → α) (xs ys : Array α) : Prop where
  size_le : xs.size ≤ ys.size
  core_eq : ∀ i, i < xs.size → core (ys.getD i default) = core (xs.getD i default)

namespace Grows

variable {α : Type} [Inhabited α] {core : α → α} {xs ys zs : Array α}

theorem of_eq (h : ys = xs) : Grows core xs ys := by
  subst h
  exact ⟨Nat.le_refl _, fun _ _ => rfl⟩

theorem refl {core : α → α} {xs : Array α} : Grows core xs xs :=
  ⟨Nat.le_refl _, fun _ _ => rfl⟩

theorem trans (h : Grows core xs ys) (h' : Grows core ys zs) : Grows core xs zs where
  size_le := Nat.le_trans h.size_le h'.size_le
  core_eq i hi := by rw [h'.core_eq i (Nat.lt_of_lt_of_le hi h.size_le), h.core_eq i hi]

theorem of_id (h : Grows id xs ys) : Grows core xs ys :=
  ⟨h.size_le, fun i hi => congrArg core (h.core_eq i hi)⟩

theorem push (core : α → α) (xs : Array α) (a : α) : Grows core xs (xs.push a) where
  size_le := by simp
  core_eq i hi := by rw [Store.getD_push, if_neg (Nat.ne_of_lt hi)]

theorem modify {f : α → α} (xs : Array α) (i : Nat) (hf : ∀ a, core (f a) = core a) :
    Grows core xs (xs.modify i f) where
  size_le := by simp
  core_eq j _ := by
    rw [Store.getD_modify]
    split
    · rw [hf]
    · rfl

theorem modify_new (h : Grows core xs ys) {i : Nat} (hi : xs.size ≤ i) (f : α → α) :
    Grows core xs (ys.modify i f) where
  size_le := by simpa using h.size_le
  core_eq j hj := by
    rw [Store.getD_modify, if_neg (by omega), h.core_eq j hj]

end Grows

namespace Store

variable {info : ValueInfo} {parent : Option ScopeId} {range : TextRange} {function : FunctionId}
  {kind : ScopeKind}
  {spec : FunctionSpec} {x : VariableId}

/-! ## Well-formed stores -/

/-- Locals are variables of the store and know that they are locals, the children of a scope are
later scopes that have it as their parent, and copies of functions are functions of the store. -/
structure WellFormed (s : Store) : Prop where
  locals_lt : ∀ id : ScopeId, id.index < s.scopes.size → ∀ v ∈ s.localsOf id, v.index < s.vars.size
  locals_scope : ∀ id : ScopeId, id.index < s.scopes.size →
    ∀ v ∈ s.localsOf id, (s.variableAt v).scope.isSome
  child : ∀ id : ScopeId, id.index < s.scopes.size → ∀ c ∈ (s.scopeAt id).children,
    id.index < c.index ∧ c.index < s.scopes.size ∧ (s.scopeAt c).parent = some id
  copies_lt : ∀ id ∈ s.importedFunctions.values, id.index < s.functions.size

theorem wellFormed_empty : WellFormed {} where
  locals_lt _ h := absurd h (by simp)
  locals_scope _ h := absurd h (by simp)
  child _ h := absurd h (by simp)
  copies_lt _ h := absurd h (by simp [OrderedMap.values])

/-! ## Growth of a store -/

/-- The functions that stand for whole files: they have no parent and are no copies. -/
def mains (s : Store) : List FunctionId :=
  ((List.range s.functions.size).map FunctionId.mk).filter fun id =>
    (s.functionAt id).parent.isNone && !s.importedFunctions.values.contains id

/-- Everything that `s` holds is in `s'`, where the scopes in `free` may have got more locals and
children. -/
structure Extends (free : ScopeId → Prop) (s s' : Store) : Prop where
  scopes : Grows Scope.shape s.scopes s'.scopes
  vars : Grows Variable.core s.vars s'.vars
  functions : Grows Function.core s.functions s'.functions
  references : Grows Reference.core s.references s'.references
  contents : ∀ id : ScopeId, id.index < s.scopes.size → ¬ free id →
    (s'.scopeAt id).core = (s.scopeAt id).core
  wellFormed : s.WellFormed → s'.WellFormed

/-- Growth that starts no file. -/
structure Within (free : ScopeId → Prop) (s s' : Store) : Prop extends Extends free s s' where
  mains : s'.mains = s.mains

namespace Extends

variable {free free' : ScopeId → Prop} {s s' s'' : Store}

theorem refl (free : ScopeId → Prop) : Extends free s s where
  scopes := .refl
  vars := .refl
  functions := .refl
  references := .refl
  contents _ _ _ := rfl
  wellFormed h := h

theorem trans (h : Extends free s s') (h' : Extends free s' s'') : Extends free s s'' where
  scopes := h.scopes.trans h'.scopes
  vars := h.vars.trans h'.vars
  functions := h.functions.trans h'.functions
  references := h.references.trans h'.references
  contents id hid hf := by
    rw [h'.contents id (Nat.lt_of_lt_of_le hid h.scopes.size_le) hf, h.contents id hid hf]
  wellFormed hs := h'.wellFormed (h.wellFormed hs)

section

variable (h : Extends free s s')
include h

theorem weaken (hf : ∀ id : ScopeId, id.index < s.scopes.size → free id → free' id) :
    Extends free' s s' :=
  { h with contents := fun id hid hn => h.contents id hid fun hfree => hn (hf id hid hfree) }

theorem scope_lt {id : ScopeId} (hid : id.index < s.scopes.size) : id.index < s'.scopes.size :=
  Nat.lt_of_lt_of_le hid h.scopes.size_le

theorem function_lt {id : FunctionId} (hid : id.index < s.functions.size) :
    id.index < s'.functions.size :=
  Nat.lt_of_lt_of_le hid h.functions.size_le

theorem variable_core {id : VariableId} (hid : id.index < s.vars.size) :
    (s'.variableAt id).core = (s.variableAt id).core :=
  h.vars.core_eq id.index hid

theorem function_core {id : FunctionId} (hid : id.index < s.functions.size) :
    (s'.functionAt id).core = (s.functionAt id).core :=
  h.functions.core_eq id.index hid

theorem reference_core {id : ReferenceId} (hid : id.index < s.references.size) :
    (s'.referenceAt id).core = (s.referenceAt id).core :=
  h.references.core_eq id.index hid

theorem scope_shape {id : ScopeId} (hid : id.index < s.scopes.size) :
    (s'.scopeAt id).shape = (s.scopeAt id).shape :=
  h.scopes.core_eq id.index hid

theorem parent_eq {id : ScopeId} (hid : id.index < s.scopes.size) :
    (s'.scopeAt id).parent = (s.scopeAt id).parent :=
  part_eq (h.scope_shape hid) Scope.parent

theorem locals_eq {id : ScopeId} (hid : id.index < s.scopes.size) (hf : ¬ free id) :
    (s'.scopeAt id).locals = (s.scopeAt id).locals :=
  part_eq (h.contents id hid hf) Scope.locals

theorem children_eq {id : ScopeId} (hid : id.index < s.scopes.size) (hf : ¬ free id) :
    (s'.scopeAt id).children = (s.scopeAt id).children :=
  part_eq (h.contents id hid hf) Scope.children

end

end Extends

namespace Within

variable {free free' : ScopeId → Prop} {s s' s'' : Store}

theorem refl {free : ScopeId → Prop} : Within free s s :=
  ⟨.refl free, rfl⟩

theorem trans (h : Within free s s') (h' : Within free s' s'') : Within free s s'' :=
  ⟨h.toExtends.trans h'.toExtends, h'.mains.trans h.mains⟩

theorem weaken (h : Within free s s')
    (hf : ∀ id : ScopeId, id.index < s.scopes.size → free id → free' id) :
    Within free' s s' :=
  ⟨h.toExtends.weaken hf, h.mains⟩

end Within

/-! ## Changes of single symbols -/

theorem WellFormed.of_scopes (hs : s.WellFormed) (hsize : s'.scopes.size = s.scopes.size)
    (hvars : Grows Variable.core s.vars s'.vars)
    (hcore : ∀ id : ScopeId, (s'.scopeAt id).core = (s.scopeAt id).core)
    (hfun : s.functions.size ≤ s'.functions.size)
    (hcopies : s'.importedFunctions = s.importedFunctions) : s'.WellFormed where
  locals_lt id hid v hv := by
    rw [localsOf, part_eq (hcore id) Scope.locals] at hv
    exact Nat.lt_of_lt_of_le (hs.locals_lt id (hsize ▸ hid) v hv) hvars.size_le
  locals_scope id hid v hv := by
    rw [localsOf, part_eq (hcore id) Scope.locals] at hv
    have hscope : (s'.variableAt v).scope = (s.variableAt v).scope :=
      part_eq (hvars.core_eq v.index (hs.locals_lt id (hsize ▸ hid) v hv)) Variable.scope
    rw [hscope]
    exact hs.locals_scope id (hsize ▸ hid) v hv
  child id hid c hc := by
    rw [part_eq (hcore id) Scope.children] at hc
    rw [hsize, part_eq (part_eq (hcore c) Scope.shape) Scope.parent]
    exact hs.child id (hsize ▸ hid) c hc
  copies_lt id hid := Nat.lt_of_lt_of_le (hs.copies_lt id (hcopies ▸ hid)) hfun

theorem mains_congr (hf : s'.functions = s.functions)
    (hi : s'.importedFunctions = s.importedFunctions) : s'.mains = s.mains := by
  simp only [mains, functionAt, hf, hi]

theorem within_of_scopes {free : ScopeId → Prop} (hscopes : s'.scopes = s.scopes)
    (hvars : Grows Variable.core s.vars s'.vars) (hfunctions : Grows Function.core s.functions
      s'.functions) (hreferences : Grows Reference.core s.references s'.references)
    (hcopies : s'.importedFunctions = s.importedFunctions) (hmains : s'.mains = s.mains) :
    Within free s s' := by
  have hat : ∀ id, s'.scopeAt id = s.scopeAt id := fun id => by rw [scopeAt, scopeAt, hscopes]
  exact
    { scopes := .of_eq hscopes
      vars := hvars
      functions := hfunctions
      references := hreferences
      contents := fun id _ _ => by rw [hat]
      wellFormed := fun hs =>
        hs.of_scopes (by rw [hscopes]) hvars (fun id => by rw [hat]) hfunctions.size_le hcopies
      mains := hmains }

variable (free : ScopeId → Prop) (s : Store)

theorem within_modifyVariable {id : VariableId} {f : Variable → Variable}
    (hf : ∀ v, (f v).core = v.core) : Within free s (s.modifyVariable id f) :=
  within_of_scopes rfl (.modify _ _ hf) .refl .refl rfl rfl

theorem within_modifyReference {id : ReferenceId} {f : Reference → Reference}
    (hf : ∀ r, (f r).core = r.core) : Within free s (s.modifyReference id f) :=
  within_of_scopes rfl .refl .refl (.modify _ _ hf) rfl rfl

theorem core_modifyScope (id i : ScopeId) {f : Scope → Scope} (hf : ∀ x, (f x).core = x.core) :
    ((s.modifyScope id f).scopeAt i).core = (s.scopeAt i).core := by
  rw [scopeAt_modifyScope]
  split
  · rw [hf]
  · rfl

theorem within_modifyScope (id : ScopeId) {f : Scope → Scope} (hf : ∀ x, (f x).core = x.core) :
    Within free s (s.modifyScope id f) where
  scopes := .modify _ _ fun x => part_eq (hf x) Scope.shape
  vars := .refl
  functions := .refl
  references := .refl
  contents i _ _ := core_modifyScope s id i hf
  wellFormed hs :=
    hs.of_scopes (by simp) .refl (fun i => core_modifyScope s id i hf) (Nat.le_refl _) rfl
  mains := rfl

theorem mains_modifyFunction {id : FunctionId} {f : Function → Function}
    (hf : ∀ x, (f x).core = x.core) : (s.modifyFunction id f).mains = s.mains := by
  have hp : ∀ i : FunctionId, ((s.modifyFunction id f).functionAt i).parent =
      (s.functionAt i).parent := by
    intro i
    rw [functionAt_modifyFunction]
    split
    · exact part_eq (hf (s.functionAt i)) Function.parent
    · rfl
  simp only [mains, size_functions_modifyFunction, hp]
  rfl

theorem within_modifyFunction {id : FunctionId} {f : Function → Function}
    (hf : ∀ x, (f x).core = x.core) : Within free s (s.modifyFunction id f) :=
  within_of_scopes rfl .refl (.modify _ _ hf) .refl rfl (mains_modifyFunction s hf)

/-! ## New symbols -/

theorem within_addVariable : Within free s (s.addVariable v).1 :=
  within_of_scopes rfl (.push _ _ _) .refl .refl rfl rfl

theorem within_addReference (r : Reference) : Within free s (s.addReference r).1 :=
  within_of_scopes rfl .refl .refl (.push _ _ _) rfl rfl

/-! ## New scopes -/

section

variable (kind : ScopeKind) (parent : Option ScopeId) (function : FunctionId) (range : TextRange)

theorem scopeAt_addScope (hp : ∀ p ∈ parent, p.index < s.scopes.size) (i : ScopeId) :
    (s.addScope kind parent function range).1.scopeAt i =
      if i.index = s.scopes.size then { kind, parent, function, range }
      else if i ∈ parent then
        { s.scopeAt i with children := (s.scopeAt i).children ++ [⟨s.scopes.size⟩] }
      else s.scopeAt i := by
  cases parent with
  | none =>
    have hpush := getD_push s.scopes { kind, parent := none, function, range } i.index default
    simpa [addScope, scopeAt] using hpush
  | some p =>
    have hlt : p.index < s.scopes.size := hp p rfl
    have hpush := getD_push s.scopes { kind, parent := some p, function, range } i.index default
    simp only [addScope, scopeAt_modifyScope]
    rw [scopeAt, hpush]
    by_cases hi : i.index = s.scopes.size
    · rw [if_neg (by omega), if_pos hi, if_pos hi]
    · rw [if_neg hi, if_neg hi]
      by_cases hpi : p = i
      · subst hpi
        simp [scopeAt]
        omega
      · have hne : ¬ p.index = i.index := fun h => hpi (by cases p; cases i; simp_all)
        simp [hne, hpi, scopeAt]

@[simp] theorem size_scopes_addScope :
    (s.addScope kind parent function range).1.scopes.size = s.scopes.size + 1 := by
  cases parent <;> simp [addScope]

@[simp] theorem functions_addScope :
    (s.addScope kind parent function range).1.functions = s.functions := by
  cases parent <;> rfl

@[simp] theorem vars_addScope : (s.addScope kind parent function range).1.vars = s.vars := by
  cases parent <;> rfl

@[simp] theorem references_addScope :
    (s.addScope kind parent function range).1.references = s.references := by
  cases parent <;> rfl

@[simp] theorem importedFunctions_addScope :
    (s.addScope kind parent function range).1.importedFunctions = s.importedFunctions := by
  cases parent <;> rfl

@[simp] theorem importedVariables_addScope :
    (s.addScope kind parent function range).1.importedVariables = s.importedVariables := by
  cases parent <;> rfl

end

theorem mem_localsOf_addScope (hp : ∀ p ∈ parent, p.index < s.scopes.size) {id : ScopeId}
    (hid : id.index < (s.addScope kind parent function range).1.scopes.size) {v : VariableId}
    (hv : v ∈ (s.addScope kind parent function range).1.localsOf id) :
    id.index < s.scopes.size ∧ v ∈ s.localsOf id := by
  rw [localsOf, scopeAt_addScope s _ _ _ _ hp] at hv
  rw [size_scopes_addScope] at hid
  by_cases hnew : id.index = s.scopes.size
  · rw [if_pos hnew] at hv
    simp [OrderedMap.values] at hv
  · rw [if_neg hnew] at hv
    refine ⟨by omega, ?_⟩
    split at hv <;> exact hv

theorem WellFormed.addScope {s : Store} (hs : s.WellFormed)
    (hp : ∀ p ∈ parent, p.index < s.scopes.size) :
    (s.addScope kind parent function range).1.WellFormed where
  locals_lt id hid v hv := by
    obtain ⟨hlt, hv⟩ := s.mem_localsOf_addScope hp hid hv
    rw [vars_addScope]
    exact hs.locals_lt id hlt v hv
  locals_scope id hid v hv := by
    obtain ⟨hlt, hv⟩ := s.mem_localsOf_addScope hp hid hv
    rw [variableAt, vars_addScope]
    exact hs.locals_scope id hlt v hv
  child id hid c hc := by
    rw [size_scopes_addScope] at hid ⊢
    rw [scopeAt_addScope s _ _ _ _ hp] at hc ⊢
    by_cases hnew : id.index = s.scopes.size
    · rw [if_pos hnew] at hc
      simp at hc
    · have hlt : id.index < s.scopes.size := by omega
      rw [if_neg hnew] at hc
      -- A child is an old one, or the new scope under its parent.
      have hold : c ∈ (s.scopeAt id).children ∨ (c = ⟨s.scopes.size⟩ ∧ id ∈ parent) := by
        split at hc
        · rename_i hpar
          rw [mem_append, mem_singleton] at hc
          exact hc.imp_right fun h => ⟨h, hpar⟩
        · exact .inl hc
      rcases hold with hold | ⟨rfl, hpar⟩
      · obtain ⟨h1, h2, h3⟩ := hs.child id hlt c hold
        refine ⟨h1, by omega, ?_⟩
        rw [if_neg (by omega)]
        split <;> exact h3
      · refine ⟨hlt, by simp, ?_⟩
        rw [if_pos rfl]
        exact hpar
  copies_lt id hid := by
    rw [importedFunctions_addScope] at hid
    rw [functions_addScope]
    exact hs.copies_lt id hid

theorem within_addScope (hp : ∀ p ∈ parent, p.index < s.scopes.size)
    (hfree : ∀ p ∈ parent, free p) : Within free s (s.addScope kind parent function range).1 where
  scopes := by
    refine ⟨by simp, fun i hi => ?_⟩
    have h := scopeAt_addScope s kind parent function range hp ⟨i⟩
    rw [if_neg (Nat.ne_of_lt hi)] at h
    change ((s.addScope kind parent function range).1.scopeAt ⟨i⟩).shape = (s.scopeAt ⟨i⟩).shape
    rw [h]
    split <;> rfl
  vars := by rw [vars_addScope]; exact .refl
  functions := by rw [functions_addScope]; exact .refl
  references := by rw [references_addScope]; exact .refl
  contents id hid hn := by
    rw [scopeAt_addScope s _ _ _ _ hp, if_neg (Nat.ne_of_lt hid), if_neg fun h => hn (hfree id h)]
  wellFormed hs := hs.addScope hp
  mains := mains_congr (functions_addScope ..) (importedFunctions_addScope ..)

/-! ## New functions -/

theorem addFunction_eq (spec : FunctionSpec) : ∃ f, (s.addFunction spec).1 =
      (addScope { s with functions := s.functions.push f } .function spec.parentScope
        ⟨s.functions.size⟩ spec.range).1 :=
  ⟨_, rfl⟩

theorem functionAt_addFunction (spec : FunctionSpec) {i : FunctionId}
    (hi : i.index < s.functions.size) : (s.addFunction spec).1.functionAt i = s.functionAt i := by
  simp only [addFunction, functionAt, functions_addScope, getD_push, if_neg (Nat.ne_of_lt hi)]

theorem functionAt_addFunction_new (spec : FunctionSpec) :
    (s.addFunction spec).1.functionAt (s.addFunction spec).2 =
      { file := spec.file, name := spec.name, parent := spec.parent, mainScope := ⟨s.scopes.size⟩
        depth := match spec.parent with
          | some p => (s.functionAt p).depth + 1
          | none => 0
        params := spec.params, isVararg := spec.isVararg, hasColon := spec.hasColon, range :=
          spec.range } := by
  unfold functionAt addFunction
  dsimp only
  rewrite [functions_addScope, getD_push, if_pos rfl]
  rfl

@[simp] theorem size_functions_addFunction :
    (s.addFunction spec).1.functions.size = s.functions.size + 1 := by
  simp [addFunction]

@[simp] theorem size_scopes_addFunction (spec : FunctionSpec) :
    (s.addFunction spec).1.scopes.size = s.scopes.size + 1 := by
  simp [addFunction]

@[simp] theorem references_addFunction : (s.addFunction spec).1.references = s.references := by
  simp [addFunction]

@[simp] theorem vars_addFunction (spec : FunctionSpec) : (s.addFunction spec).1.vars = s.vars := by
  simp [addFunction]

@[simp] theorem importedVariables_addFunction (spec : FunctionSpec) :
    (s.addFunction spec).1.importedVariables = s.importedVariables := by
  simp [addFunction]

@[simp] theorem importedFunctions_addFunction (spec : FunctionSpec) :
    (s.addFunction spec).1.importedFunctions = s.importedFunctions := by
  simp [addFunction]

theorem scopeAt_addFunction (spec : FunctionSpec)
    (hp : ∀ p ∈ spec.parentScope, p.index < s.scopes.size) (i : ScopeId) :
    (s.addFunction spec).1.scopeAt i = if i.index = s.scopes.size then
        { kind := .function, parent := spec.parentScope, function := ⟨s.functions.size⟩,
          range := spec.range }
      else if i ∈ spec.parentScope then
        { s.scopeAt i with children := (s.scopeAt i).children ++ [⟨s.scopes.size⟩] } else s.scopeAt
        i := by
  obtain ⟨f, hf⟩ := s.addFunction_eq spec
  rw [hf]
  exact scopeAt_addScope { s with functions := s.functions.push f } _ _ _ _ hp i

theorem extends_addFunction (spec : FunctionSpec)
    (hp : ∀ p ∈ spec.parentScope, p.index < s.scopes.size)
    (hfree : ∀ p ∈ spec.parentScope, free p) : Extends free s (s.addFunction spec).1 := by
  obtain ⟨f, hf⟩ := s.addFunction_eq spec
  rw [hf]
  refine Extends.trans ?_
    (within_addScope free { s with functions := s.functions.push f } hp hfree).toExtends
  exact
    { scopes := .refl
      vars := .refl
      functions := .push _ _ _
      references := .refl
      contents := fun _ _ _ => rfl
      wellFormed := fun hs => hs.of_scopes rfl .refl (fun _ => rfl) (by simp) rfl }

theorem mains_of_size_succ {s : Store} (hsize : s'.functions.size = s.functions.size + 1)
    (hparent : ∀ i : FunctionId, i.index < s.functions.size →
      (s'.functionAt i).parent = (s.functionAt i).parent)
    (hcopy : ∀ i : FunctionId, i.index < s.functions.size →
      s'.importedFunctions.values.contains i = s.importedFunctions.values.contains i) :
    s'.mains = s.mains ++ [⟨s.functions.size⟩].filter fun id =>
      (s'.functionAt id).parent.isNone && !s'.importedFunctions.values.contains id := by
  rw [mains, mains, hsize, range_succ, map_append, filter_append]
  congr 1
  refine filter_congr fun i hi => ?_
  obtain ⟨n, hn, rfl⟩ := mem_map.1 hi
  have hlt : n < s.functions.size := mem_range.1 hn
  rw [hparent ⟨n⟩ hlt, hcopy ⟨n⟩ hlt]

theorem within_addFunction (hp : ∀ p ∈ spec.parentScope, p.index < s.scopes.size)
    (hfree : ∀ p ∈ spec.parentScope, free p) (hparent : spec.parent.isSome) :
    Within free s (s.addFunction spec).1 := by
  refine ⟨extends_addFunction free s spec hp hfree, ?_⟩
  have hnew := functionAt_addFunction_new s spec
  rw [mains_of_size_succ (s := s) (by simp) (fun i hi => by rw [functionAt_addFunction s spec hi])
    (by simp)]
  have hpar : ((s.addFunction spec).1.functionAt ⟨s.functions.size⟩).parent = spec.parent := by
    change ((s.addFunction spec).1.functionAt (s.addFunction spec).2).parent = spec.parent
    rw [hnew]
  simp [hpar, Option.isSome_iff_ne_none.1 hparent]

theorem mains_addFunction_main (hs : s.WellFormed) {file : FileId} :
    (s.addFunction (.main file range)).1.mains = s.mains ++ [⟨s.functions.size⟩] := by
  have hcopy : (⟨s.functions.size⟩ : FunctionId) ∉ s.importedFunctions.values := fun h =>
    Nat.lt_irrefl _ (hs.copies_lt _ h)
  rw [mains_of_size_succ (s := s) (by simp) (fun i hi => by rw [functionAt_addFunction s _ hi])
    (by simp)]
  have hpar : ((s.addFunction (.main file range)).1.functionAt ⟨s.functions.size⟩).parent =
      none := by
    have hnew := functionAt_addFunction_new s (.main file range)
    exact congrArg Function.parent hnew
  simp [hpar, hcopy]

/-! ## Declarations -/

def declared (s : Store) (scope : ScopeId) (v : Variable) : Store :=
  (s.addVariable v).1.declareLocal scope v.name (s.addVariable v).2

theorem scopeAt_declared (scope i : ScopeId) (v : Variable) : (s.declared scope v).scopeAt i =
      if scope.index = i.index ∧ i.index < s.scopes.size then
        { s.scopeAt i with
          locals := (s.scopeAt i).locals.alter v.name fun vs => vs.getD [] ++ [⟨s.vars.size⟩] }
      else s.scopeAt i :=
  getD_modify

theorem variableAt_declared : (s.declared scope v).variableAt i =
      if i.index = s.vars.size then { v with scope := some scope } else s.variableAt i := by
  have h := variableAt_modifyVariable (s.addVariable v).1 (s.addVariable v).2 i
    ({ · with scope := some scope })
  rw [variableAt_addVariable] at h
  change ((s.addVariable v).1.modifyVariable (s.addVariable v).2 _).variableAt i = _
  rw [h]
  by_cases hi : i.index = s.vars.size
  · simp [hi, addVariable]
  · simp [hi, addVariable, Ne.symm hi]

theorem mem_values_alter_append {m : OrderedMap String (List VariableId)} {v : VariableId}
    (h : x ∈ (m.alter name fun vs => vs.getD [] ++ [v]).values.flatten) :
    x = v ∨ x ∈ m.values.flatten := by
  obtain ⟨vs, hvs, hx⟩ := mem_flatten.1 h
  rcases OrderedMap.mem_values_insert hvs with rfl | hold
  · rw [mem_append, mem_singleton] at hx
    refine hx.symm.imp_right fun hx => ?_
    cases hget : m.get? name with
    | none => simp [hget] at hx
    | some ws =>
      rw [hget] at hx
      exact mem_flatten.2 ⟨ws, OrderedMap.mem_values_of_get? hget, hx⟩
  · exact .inr (mem_flatten.2 ⟨vs, hold, hx⟩)

theorem size_scopes_declared : (s.declared scope v).scopes.size = s.scopes.size := by
  simp [declared, declareLocal, addVariable, modifyScope, modifyVariable]

theorem size_vars_declared : (s.declared scope v).vars.size = s.vars.size + 1 := by
  simp [declared, declareLocal, addVariable, modifyScope, modifyVariable]

theorem grows_declared : Grows Variable.core s.vars (s.declared scope v).vars :=
  (Grows.push Variable.core s.vars v).modify_new (Nat.le_refl _) ({ · with scope := some scope })

theorem mem_localsOf_declared {id : ScopeId} (hx : x ∈ (s.declared scope v).localsOf id) :
    x = ⟨s.vars.size⟩ ∨ x ∈ s.localsOf id := by
  rw [localsOf, scopeAt_declared] at hx
  split at hx
  · exact mem_values_alter_append hx
  · exact .inr hx

theorem WellFormed.declared {s : Store} (hs : s.WellFormed) : (s.declared scope v).WellFormed where
  locals_lt id hid x hx := by
    rw [size_scopes_declared] at hid
    rw [size_vars_declared]
    rcases s.mem_localsOf_declared hx with rfl | hx
    · exact Nat.lt_succ_self _
    · exact Nat.lt_succ_of_lt (hs.locals_lt id hid x hx)
  locals_scope id hid x hx := by
    rw [size_scopes_declared] at hid
    rw [variableAt_declared]
    rcases s.mem_localsOf_declared hx with rfl | hx
    · rw [if_pos rfl]
      rfl
    · rw [if_neg (Nat.ne_of_lt (hs.locals_lt id hid x hx))]
      exact hs.locals_scope id hid x hx
  child id hid c hc := by
    rw [size_scopes_declared] at hid ⊢
    rw [scopeAt_declared] at hc ⊢
    have hc' : c ∈ (s.scopeAt id).children := by split at hc <;> exact hc
    obtain ⟨h1, h2, h3⟩ := hs.child id hid c hc'
    refine ⟨h1, h2, ?_⟩
    split <;> exact h3
  copies_lt := hs.copies_lt

theorem within_declared (scope : ScopeId) (v : Variable) :
    Within (· = scope) s (s.declared scope v) where
  scopes := by
    have hmod : ∀ x : Scope, Scope.shape { x with
        locals := x.locals.alter v.name fun vs => vs.getD [] ++ [⟨s.vars.size⟩] } =
          x.shape := fun _ => rfl
    exact .modify s.scopes scope.index hmod
  vars := s.grows_declared
  functions := .refl
  references := .refl
  contents id hid hn := by
    have hne : ¬ scope.index = id.index := fun h => hn (by cases scope; cases id; simp_all)
    rw [scopeAt_declared, if_neg fun h => hne h.1]
  wellFormed hs := hs.declared
  mains := rfl

/-! ## Values and narrowing -/

theorem within_reassign {id : VariableId} : Within free s (s.reassign id info) :=
  within_modifyVariable free s fun v => by
    split <;> rfl

theorem within_narrow {v : VariableId} : Within free s (s.narrow scope name v) :=
  within_modifyScope free s scope fun _ => rfl

theorem within_foldl {α : Type} {f : Store → α → Store} (hf : ∀ s a, Within free s (f s a))
    {xs : List α} : Within free s (xs.foldl f s) := by
  induction xs generalizing s with
  | nil => exact .refl
  | cons a xs ih => exact (hf s a).trans (ih (f s a))

theorem within_clearNarrowing : Within free s (s.clearNarrowing scope name) := by
  have herase : ∀ x : Scope, Scope.core { x with narrowed := x.narrowed.erase name } = x.core :=
    fun _ => rfl
  exact within_foldl free s (fun s id => within_modifyScope free s id herase)

/-! ## Marked references -/

/-- The references whose target was being walked when they were met. -/
def marked (s : Store) : List ReferenceId :=
  ((List.range s.references.size).map ReferenceId.mk).filter fun id => (s.referenceAt id).inProgress

theorem mem_marked_iff {id : ReferenceId} :
    id ∈ s.marked ↔ id.index < s.references.size ∧ (s.referenceAt id).inProgress = true := by
  obtain ⟨n⟩ := id
  simp [marked]

theorem inProgress_iff_mem_marked {id : ReferenceId} :
    (s.referenceAt id).inProgress = true ↔ id ∈ s.marked := by
  rw [mem_marked_iff]
  refine ⟨fun h => ⟨Nat.lt_of_not_le fun hle => ?_, h⟩, fun h => h.2⟩
  rw [referenceAt, Array.getD_eq_getD_getElem?, Array.getElem?_eq_none hle] at h
  exact absurd h (by decide)

theorem Extends.marked_eq {free : ScopeId → Prop} {s : Store} (h : Extends free s s') :
    s'.marked = s.marked ++ (((List.range (s'.references.size - s.references.size)).map fun n =>
      ReferenceId.mk (s.references.size + n)).filter fun id => (s'.referenceAt id).inProgress) := by
  have hsize : s'.references.size =
      s.references.size + (s'.references.size - s.references.size) := by
    have := h.references.size_le
    omega
  rw [marked, hsize, range_add, map_append, filter_append, map_map]
  congr 1
  · refine filter_congr fun i hi => ?_
    obtain ⟨n, hn, rfl⟩ := mem_map.1 hi
    exact part_eq (h.reference_core (mem_range.1 hn)) Reference.inProgress
  · simp [Function.comp_def]

theorem Extends.marked_of_size_eq {free : ScopeId → Prop} {s : Store} (h : Extends free s s')
    (hsize : s'.references.size = s.references.size) : s'.marked = s.marked := by
  simp [h.marked_eq, hsize]

theorem marked_addReference (r : Reference) :
    (s.addReference r).1.marked =
      s.marked ++ if r.inProgress then [⟨s.references.size⟩] else [] := by
  have hnew := referenceAt_addReference s r ⟨s.references.size⟩
  have hsize : (s.addReference r).1.references.size - s.references.size = 1 := by
    simp [addReference]
  rw [(within_addReference (fun _ => False) s r).marked_eq, hsize]
  cases hr : r.inProgress <;> simp [hnew, hr, List.filter]

end Store

end LuaAnalysis
