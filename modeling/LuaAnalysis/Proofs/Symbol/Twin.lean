import LuaAnalysis.Proofs.Symbol.Growth

/-!
# Stores that differ in the names of files

Two walks of one text, in projects where the file has different numbers and where its loads lead
elsewhere, build stores that are twins: the same symbols, with the files renamed and with other
targets of the references. Whatever is asked of twins has the same answer, unless it is about files
or targets, and every operation takes twins to twins.
-/

namespace LuaAnalysis

/-- The variable with another number for its file. -/
def Variable.rename (ρ : FileId → FileId) (v : Variable) : Variable :=
  { v with file := ρ v.file }

def Function.rename (ρ : FileId → FileId) (f : Function) : Function :=
  { f with file := ρ f.file }

/-- A reference, but not the file that it was resolved to. -/
def Reference.withoutTarget (r : Reference) : Reference :=
  { r with target := none }

variable {α : Type} {xs : Array α} {scope : ScopeId} {name : String}
variable {info : ValueInfo}

namespace Store

/-- The store with other numbers for files. -/
def rename (ρ : FileId → FileId) (s : Store) : Store :=
  { s with vars := s.vars.map (·.rename ρ), functions := s.functions.map (·.rename ρ) }

/-- The store without the targets of references. -/
def withoutTargets (s : Store) : Store :=
  { s with references := s.references.map (·.withoutTarget) }

/-- `s'` is `s` with its files renamed, apart from the targets of references. -/
structure Twin (ρ : FileId → FileId) (s s' : Store) : Prop where
  scopes : s'.scopes = s.scopes
  vars : s'.vars = s.vars.map (·.rename ρ)
  functions : s'.functions = s.functions.map (·.rename ρ)
  references : s'.references.map (·.withoutTarget) = s.references.map (·.withoutTarget)
  importedVariables : s'.importedVariables = s.importedVariables
  importedFunctions : s'.importedFunctions = s.importedFunctions

theorem twin_iff {ρ : FileId → FileId} {s s' : Store} :
    s.Twin ρ s' ↔ (s.rename ρ).withoutTargets = s'.withoutTargets := by
  constructor
  · intro h
    unfold rename withoutTargets
    rw [← h.scopes, ← h.vars, ← h.functions, ← h.references, ← h.importedVariables,
      ← h.importedFunctions]
  · intro h
    have hscopes := congrArg Store.scopes h
    have hvars := congrArg Store.vars h
    have hfunctions := congrArg Store.functions h
    have hreferences := congrArg Store.references h
    have hvariables := congrArg Store.importedVariables h
    have hcopies := congrArg Store.importedFunctions h
    exact ⟨hscopes.symm, hvars.symm, hfunctions.symm, hreferences.symm, hvariables.symm,
      hcopies.symm⟩

theorem twin_empty (ρ : FileId → FileId) : ({} : Store).Twin ρ {} :=
  ⟨rfl, Array.map_empty.symm, Array.map_empty.symm, rfl, rfl, rfl⟩

theorem twin_id {s : Store} : s.Twin id s where
  scopes := rfl
  vars := (Array.map_id s.vars).symm
  functions := (Array.map_id s.functions).symm
  references := rfl
  importedVariables := rfl
  importedFunctions := rfl

variable {i : Nat}

theorem map_modify {β : Type} {g : α → β} {f : α → α} {f' : β → β} (h : ∀ a, g (f a) = f' (g a)) :
    (xs.modify i f).map g = (xs.map g).modify i f' := by
  apply Array.ext_getElem?
  intro j
  rw [Array.getElem?_map, Array.getElem?_modify, Array.getElem?_modify, Array.getElem?_map]
  by_cases hij : i = j
  · rw [if_pos hij, if_pos hij]
    cases xs[j]? with
    | none => rfl
    | some a => exact congrArg some (h a)
  · rw [if_neg hij, if_neg hij]

theorem getD_map_of_lt {β : Type} {g : α → β} (hi : i < xs.size) {a : α} {b : β} :
    (xs.map g).getD i b = g (xs.getD i a) := by
  simp only [Array.getD_eq_getD_getElem?, Array.getElem?_map, Array.getElem?_eq_getElem hi,
    Option.map_some, Option.getD_some]

theorem getD_of_le (hi : xs.size ≤ i) {a : α} : xs.getD i a = a := by
  simp only [Array.getD_eq_getD_getElem?, Array.getElem?_eq_none hi, Option.getD_none]

namespace Twin

variable {ρ : FileId → FileId} {s s' : Store} {id v : VariableId}

/-! ## Questions -/

section

variable (h : s.Twin ρ s')
include h

theorem variableAt (id : VariableId) :
    ∃ file, s'.variableAt id = { s.variableAt id with file } := by
  unfold Store.variableAt
  rw [h.vars]
  by_cases hid : id.index < s.vars.size
  · exact ⟨_, getD_map_of_lt hid⟩
  · have hle : s.vars.size ≤ id.index := Nat.le_of_not_lt hid
    refine ⟨(default : Variable).file, ?_⟩
    rw [getD_of_le hle, getD_of_le (by rwa [Array.size_map])]

theorem functionAt (id : FunctionId) :
    ∃ file, s'.functionAt id = { s.functionAt id with file } := by
  unfold Store.functionAt
  rw [h.functions]
  by_cases hid : id.index < s.functions.size
  · exact ⟨_, getD_map_of_lt hid⟩
  · have hle : s.functions.size ≤ id.index := Nat.le_of_not_lt hid
    refine ⟨(default : Function).file, ?_⟩
    rw [getD_of_le hle, getD_of_le (by rwa [Array.size_map])]

theorem mainScope {id : FunctionId} :
    (s'.functionAt id).mainScope = (s.functionAt id).mainScope := by
  obtain ⟨file, hfile⟩ := h.functionAt id
  rw [hfile]

theorem scopeAt {id : ScopeId} : s'.scopeAt id = s.scopeAt id := by
  unfold Store.scopeAt
  rw [h.scopes]

theorem size_vars : s'.vars.size = s.vars.size := by
  rw [h.vars, Array.size_map]

theorem size_functions : s'.functions.size = s.functions.size := by
  rw [h.functions, Array.size_map]

theorem size_references : s'.references.size = s.references.size := by
  have hsize := congrArg Array.size h.references
  rwa [Array.size_map, Array.size_map] at hsize

theorem ancestors {id : ScopeId} : s'.ancestors id = s.ancestors id := by
  fun_induction Store.ancestors s id with
  | case1 id ih =>
    rw [Store.ancestors, h.scopeAt]
    cases hparent : (s.scopeAt id).parent with
    | none => rfl
    | some p =>
      by_cases hlt : p.index < id.index
      · simp only [hlt, if_true, ih p hlt]
      · simp only [hlt, if_false]

theorem lookupLocal? : s'.lookupLocal? scope name = s.lookupLocal? scope name := by
  unfold Store.lookupLocal? Store.localIn?
  rw [h.ancestors]
  simp only [h.scopeAt]

theorem scopesOfFunction : s'.scopesOfFunction scope = s.scopesOfFunction scope := by
  unfold Store.scopesOfFunction
  rw [h.ancestors]
  simp only [h.scopeAt]

theorem narrowed? : s'.narrowed? scope name = s.narrowed? scope name := by
  unfold Store.narrowed?
  rw [h.scopesOfFunction]
  simp only [h.scopeAt]

theorem isDescendantOf {ancestor : ScopeId} :
    s'.isDescendantOf scope ancestor = s.isDescendantOf scope ancestor := by
  unfold Store.isDescendantOf
  rw [h.ancestors]

theorem localsOf : s'.localsOf scope = s.localsOf scope := by
  unfold Store.localsOf
  rw [h.scopeAt]

theorem memberOf? {owner : VariableId} : s'.memberOf? owner name = s.memberOf? owner name := by
  unfold Store.memberOf?
  obtain ⟨file, hfile⟩ := h.variableAt owner
  rw [hfile]

theorem memberAlong? {owner : Option VariableId} {path : List String} :
    s'.memberAlong? owner path = s.memberAlong? owner path := by
  unfold Store.memberAlong?
  simp only [h.memberOf?]

theorem infoOf : s'.infoOf id = s.infoOf id := by
  unfold Store.infoOf
  obtain ⟨file, hfile⟩ := h.variableAt id
  rw [hfile]

theorem typeOf? : s'.typeOf? info = s.typeOf? info := by
  unfold Store.typeOf?
  cases info.var with
  | none => rfl
  | some v =>
    obtain ⟨file, hfile⟩ := h.variableAt v
    simp only [Option.bind_some, hfile]

theorem calleeOf? : s'.calleeOf? info = s.calleeOf? info := by
  unfold Store.calleeOf?
  cases info.var with
  | none => rfl
  | some v =>
    obtain ⟨file, hfile⟩ := h.variableAt v
    simp only [Option.bind_some, hfile]

theorem callResult {callee : ValueInfo} : s'.callResult callee = s.callResult callee := by
  unfold Store.callResult
  rw [h.calleeOf?]
  cases s.calleeOf? callee with
  | none => rfl
  | some f =>
    obtain ⟨file, hfile⟩ := h.functionAt f
    simp only [hfile]
    rfl

theorem variableFrom {file : FileId} {range : TextRange} :
    s'.variableFrom name (ρ file) range info = (s.variableFrom name file range info).rename ρ := by
  unfold Store.variableFrom
  cases info.var with
  | none => rfl
  | some v =>
    obtain ⟨x, hx⟩ := h.variableAt v
    dsimp only
    rw [hx]
    rfl

/-! ## Operations -/

theorem modifyScope (id : ScopeId) {f : Scope → Scope} :
    (s.modifyScope id f).Twin ρ (s'.modifyScope id f) :=
  { h with scopes := congrArg (·.modify id.index f) h.scopes }

theorem modifyVariable {f : Variable → Variable} (hf : ∀ v, (f v).rename ρ = f (v.rename ρ)) :
    (s.modifyVariable id f).Twin ρ (s'.modifyVariable id f) := by
  refine { h with vars := ?_ }
  change s'.vars.modify id.index f = (s.vars.modify id.index f).map (·.rename ρ)
  rw [h.vars, map_modify hf]

theorem modifyFunction {id : FunctionId} {f : Function → Function}
    (hf : ∀ x, (f x).rename ρ = f (x.rename ρ)) :
    (s.modifyFunction id f).Twin ρ (s'.modifyFunction id f) := by
  refine { h with functions := ?_ }
  change s'.functions.modify id.index f = (s.functions.modify id.index f).map (·.rename ρ)
  rw [h.functions, map_modify hf]

theorem modifyReference {id : ReferenceId} {f : Reference → Reference}
    (hf : ∀ r, (f r).withoutTarget = f r.withoutTarget) :
    (s.modifyReference id f).Twin ρ (s'.modifyReference id f) := by
  refine { h with references := ?_ }
  change (s'.references.modify id.index f).map _ = (s.references.modify id.index f).map _
  rw [map_modify hf, map_modify hf, h.references]

theorem addVariable (v : Variable) : (s'.addVariable (v.rename ρ)).2 = (s.addVariable v).2 ∧
      (s.addVariable v).1.Twin ρ (s'.addVariable (v.rename ρ)).1 := by
  refine ⟨congrArg VariableId.mk h.size_vars, { h with vars := ?_ }⟩
  change s'.vars.push (v.rename ρ) = (s.vars.push v).map (·.rename ρ)
  rw [h.vars, Array.map_push]

theorem addReference {r r' : Reference} (hr : r'.withoutTarget = r.withoutTarget) :
    (s'.addReference r').2 = (s.addReference r).2 ∧
    (s.addReference r).1.Twin ρ (s'.addReference r').1 := by
  refine ⟨congrArg ReferenceId.mk h.size_references, { h with references := ?_ }⟩
  change (s'.references.push r').map (·.withoutTarget) = (s.references.push r).map (·.withoutTarget)
  rw [Array.map_push, Array.map_push, h.references, hr]

theorem addScope (kind : ScopeKind) (parent : Option ScopeId) (function : FunctionId)
    (range : TextRange) :
    (s'.addScope kind parent function range).2 = (s.addScope kind parent function range).2 ∧
      (s.addScope kind parent function range).1.Twin ρ
        (s'.addScope kind parent function range).1 := by
  have hpush : Twin ρ { s with scopes := s.scopes.push { kind, parent, function, range } }
      { s' with scopes := s'.scopes.push { kind, parent, function, range } } :=
    { h with scopes := congrArg (·.push { kind, parent, function, range }) h.scopes }
  unfold Store.addScope
  rw [h.scopes] at hpush ⊢
  cases parent with
  | none => exact ⟨rfl, hpush⟩
  | some p => exact ⟨rfl, hpush.modifyScope p⟩

theorem addFunction (spec : FunctionSpec) :
    (s'.addFunction { spec with file := ρ spec.file }).2 = (s.addFunction spec).2 ∧
      (s.addFunction spec).1.Twin ρ (s'.addFunction { spec with file := ρ spec.file }).1 := by
  refine ⟨congrArg FunctionId.mk h.size_functions, ?_⟩
  unfold Store.addFunction
  dsimp only
  rw [h.size_functions]
  refine (Twin.addScope ?_ .function spec.parentScope _ spec.range).2
  refine { h with functions := ?_ }
  change s'.functions.push _ = (s.functions.push _).map _
  rw [h.functions, Array.map_push, h.scopes]
  refine congrArg (s.functions.map (·.rename ρ)).push ?_
  cases spec.parent with
  | none => rfl
  | some p =>
    obtain ⟨file, hfile⟩ := h.functionAt p
    dsimp only
    rw [hfile]
    rfl

theorem declareLocal : (s.declareLocal scope name v).Twin ρ (s'.declareLocal scope name v) := by
  refine Twin.modifyScope (Twin.modifyVariable h ?_) scope
  exact fun _ => rfl

end

theorem foldl {f : Store → α → Store} (hf : ∀ s s' a, s.Twin ρ s' → (f s a).Twin ρ (f s' a))
    (h : s.Twin ρ s') {xs : List α} : (xs.foldl f s).Twin ρ (xs.foldl f s') := by
  induction xs generalizing s s' with
  | nil => exact h
  | cons a xs ih => exact ih (hf s s' a h)

theorem narrow (h : s.Twin ρ s') : (s.narrow scope name v).Twin ρ (s'.narrow scope name v) :=
  h.modifyScope scope

theorem clearNarrowing (h : s.Twin ρ s') :
    (s.clearNarrowing scope name).Twin ρ (s'.clearNarrowing scope name) := by
  unfold Store.clearNarrowing
  rw [h.scopesOfFunction]
  exact foldl (fun _ _ id h => h.modifyScope id) h

theorem reassign (h : s.Twin ρ s') : (s.reassign id info).Twin ρ (s'.reassign id info) := by
  unfold Store.reassign
  dsimp only
  have hheld : ∀ {α : Type} (g : Variable → α), (∀ v file, g { v with file } = g v) →
      ((info.var.filter (· ≠ id)).map s'.variableAt).map g =
      ((info.var.filter (· ≠ id)).map s.variableAt).map g := by
    intro α g hg
    cases info.var.filter (· ≠ id) with
    | none => rfl
    | some held =>
      obtain ⟨file, hfile⟩ := h.variableAt held
      simp only [Option.map_some, hfile, hg]
  rw [hheld (·.flags.declaredEmpty) fun _ _ => rfl, hheld (·.members) fun _ _ => rfl]
  refine h.modifyVariable fun v => ?_
  unfold Variable.rename
  dsimp only
  split <;> rfl

end Twin

end Store

end LuaAnalysis
