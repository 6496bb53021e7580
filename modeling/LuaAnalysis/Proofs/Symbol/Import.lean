import LuaAnalysis.Proofs.Symbol.Growth

/-!
# Copies only add

Copying symbols of another store grows a store. It starts no file, and marks no reference unless the
other store has marked references. The copy of a variable keeps what identifies it, but belongs to
no scope.
-/

namespace LuaAnalysis

open List

/-- What a copy has in common with its original; it belongs to no scope and no function. -/
def Variable.copied (v : Variable) : Variable :=
  { v.core with scope := none, owner := none }

variable {key : FileId × FunctionId} {types : FunctionTypes} {ids : List VariableId}
  {load : LoadKind}
  {r : FileResult}

namespace Store

/-- Every copy recorded for a file `origin` with the store `source` is like its original. -/
def Mirrors (s source : Store) (origin : FileId) : Prop :=
  ∀ v copy, s.importedVariables.get? (origin, v) = some copy →
    copy.index < s.vars.size ∧ (s.variableAt copy).core = (source.variableAt v).copied

/-- Copies stay like their originals while variables keep what identifies them. -/
theorem Mirrors.of_grows {s s' source : Store} {origin : FileId} (h : s.Mirrors source origin)
    (hv : Grows Variable.core s.vars s'.vars) (hi : s'.importedVariables = s.importedVariables) :
    s'.Mirrors source origin := by
  intro v copy hcopy
  obtain ⟨hlt, hcore⟩ := h v copy (hi ▸ hcopy)
  exact ⟨Nat.lt_of_lt_of_le hlt hv.size_le, (hv.core_eq copy.index hlt).trans hcore⟩

/-- The scopes and functions of a store are as they were; there may be new ones. -/
structure Rests (s s' : Store) : Prop where
  scopes : Grows id s.scopes s'.scopes
  functions : Grows id s.functions s'.functions

/-- A store `s` has become `s'` by copying symbols of `source`, the store of the file `origin`. -/
structure CopiesFrom (source : Store) (origin : FileId) (s s' : Store) : Prop where
  within : Within (fun _ => False) s s'
  rests : Rests s s'
  marked : source.marked = [] → s'.marked = s.marked
  mirrors : ∀ source' origin', (origin' = origin → source' = source) →
    s.Mirrors source' origin' → s'.Mirrors source' origin'

namespace CopiesFrom

variable {source s s' s'' : Store} {origin : FileId}

theorem refl : CopiesFrom source origin s s :=
  ⟨.refl, ⟨.refl, .refl⟩, fun _ => rfl, fun _ _ _ h => h⟩

theorem trans (h : CopiesFrom source origin s s') (h' : CopiesFrom source origin s' s'') :
    CopiesFrom source origin s s'' where
  within := h.within.trans h'.within
  rests := ⟨h.rests.scopes.trans h'.rests.scopes, h.rests.functions.trans h'.rests.functions⟩
  marked hs := (h'.marked hs).trans (h.marked hs)
  mirrors source' origin' hsame hs :=
    h'.mirrors source' origin' hsame (h.mirrors source' origin' hsame hs)

/-- A step that records no copy of a variable. -/
theorem of_within (h : Within (fun _ => False) s s') (hr : Rests s s')
    (hsize : s'.references.size = s.references.size)
    (hi : s'.importedVariables = s.importedVariables) : CopiesFrom source origin s s' :=
  ⟨h, hr, fun _ => h.marked_of_size_eq hsize, fun _ _ _ hm => hm.of_grows h.vars hi⟩

/-- Copying one symbol after another. -/
theorem foldl {α : Type} {f : Store → α → Store} (hf : ∀ s a, CopiesFrom source origin s (f s a))
    {xs : List α} (s : Store) : CopiesFrom source origin s (xs.foldl f s) := by
  induction xs generalizing s with
  | nil => exact .refl
  | cons a xs ih => exact (hf s a).trans (ih (f s a))

end CopiesFrom

variable (s source : Store) (origin : FileId)

theorem copiesFrom_addVariable {v : Variable} : CopiesFrom source origin s (s.addVariable v).1 :=
  .of_within (within_addVariable _ s) ⟨.refl, .refl⟩ rfl rfl

variable {id : VariableId} {spec : FunctionSpec}

theorem copiesFrom_modifyVariable {f : Variable → Variable} (hf : ∀ v, (f v).core = v.core) :
    CopiesFrom source origin s (s.modifyVariable id f) :=
  .of_within (within_modifyVariable _ s hf) ⟨.refl, .refl⟩ rfl rfl

/-! ## Functions -/

/-- The store with a copy of a function, recorded under the key of its original. -/
def withCopy (s : Store) (key : FileId × FunctionId) (spec : FunctionSpec)
    (types : FunctionTypes) : Store :=
  let (s', copy) := s.addFunction spec
  { s'.modifyFunction copy
    ({ · with types }) with importedFunctions := s'.importedFunctions.insert key copy }

/-- A function is copied once: if a copy is recorded, the store is as it was. -/
theorem importFunction_eq {id : FunctionId} : (s.importFunction source origin id).1 = s ∨
      s.importedFunctions.get? (origin, id) = none ∧
      ∃ spec : FunctionSpec, spec.parentScope = none ∧
        (s.importFunction source origin id).1 =
          s.withCopy (origin, id) spec (source.functionAt id).types := by
  rw [importFunction]
  cases h : s.importedFunctions.get? (origin, id) with
  | some copy => exact .inl rfl
  | none => exact .inr ⟨rfl, _, rfl, rfl⟩

theorem within_withCopy (hkey : s.importedFunctions.get? key = none)
    (hspec : spec.parentScope = none) : Within (fun _ => False) s (s.withCopy key spec types) := by
  have hadd : Extends (fun _ => False) s (s.addFunction spec).1 :=
    extends_addFunction _ s spec (by simp [hspec]) (by simp [hspec])
  have hvalues : (s.withCopy key spec types).importedFunctions.values =
      s.importedFunctions.values ++ [⟨s.functions.size⟩] := by
    have hinsert : (s.withCopy key spec types).importedFunctions =
        (s.addFunction spec).1.importedFunctions.insert key ⟨s.functions.size⟩ := rfl
    rw [hinsert, importedFunctions_addFunction, OrderedMap.values_insert_of_get?_eq_none hkey]
  have hsize : (s.withCopy key spec types).functions.size = s.functions.size + 1 := by
    simp [withCopy]
  have hfunctions : Grows Function.core s.functions (s.withCopy key spec types).functions :=
    hadd.functions.modify_new (Nat.le_refl _) ({ · with types })
  refine
    { scopes := hadd.scopes
      vars := hadd.vars
      functions := hfunctions
      references := hadd.references
      contents := hadd.contents
      wellFormed := fun hs => ?_
      mains := ?_ }
  · have hwf := hadd.wellFormed hs
    refine ⟨hwf.locals_lt, hwf.locals_scope, hwf.child, fun id hid => ?_⟩
    rw [hvalues, mem_append, mem_singleton] at hid
    rw [hsize]
    rcases hid with hold | rfl
    · exact Nat.lt_succ_of_lt (hs.copies_lt id hold)
    · exact Nat.lt_succ_self _
  · rw [mains_of_size_succ hsize
      (fun i hi => part_eq (hfunctions.core_eq i.index hi) Function.parent)]
    · simp [hvalues]
    · intro i hi
      have hne : i ≠ ⟨s.functions.size⟩ := fun h => absurd hi (by simp [h])
      simp [hvalues, hne]

theorem rests_withCopy (hspec : spec.parentScope = none) : Rests s (s.withCopy key spec types) where
  scopes := by
    refine ⟨by simp [withCopy, modifyFunction], fun i hi => ?_⟩
    have h := s.scopeAt_addFunction spec (by simp [hspec]) ⟨i⟩
    rw [if_neg (Nat.ne_of_lt hi), if_neg (by simp [hspec])] at h
    exact h
  functions := by
    obtain ⟨f, hf⟩ := s.addFunction_eq spec
    have hadd : Grows id s.functions (s.addFunction spec).1.functions := by
      rw [hf, functions_addScope]
      exact .push _ _ _
    exact hadd.modify_new (Nat.le_refl _) ({ · with types })

theorem importedVariables_withCopy :
    (s.withCopy key spec types).importedVariables = s.importedVariables := by
  simp [withCopy, modifyFunction, addFunction]

/-- Copying a function adds it with its main scope, under no other scope. -/
theorem copiesFrom_importFunction {id : FunctionId} :
    CopiesFrom source origin s (s.importFunction source origin id).1 := by
  rcases importFunction_eq s source origin with h | ⟨hkey, spec, hspec, h⟩
  · rw [h]
    exact .refl
  · rw [h]
    exact .of_within (within_withCopy s hkey hspec) (s.rests_withCopy hspec)
      (by simp [withCopy, modifyFunction])
      s.importedVariables_withCopy

theorem copiesFrom_importFunction? (id : Option FunctionId) :
    CopiesFrom source origin s (s.importFunction? source origin id).1 := by
  cases id with
  | none => exact .refl
  | some id => exact copiesFrom_importFunction s source origin

/-! ## References and variables -/

theorem copiesFrom_importReference? (id : Option ReferenceId) :
    CopiesFrom source origin s (s.importReference? source id).1 := by
  cases id with
  | none => exact .refl
  | some id =>
    have hadd := within_addReference (fun _ => False) s (source.referenceAt id)
    refine ⟨hadd, ⟨.refl, .refl⟩, fun hs => ?_, fun _ _ _ hm => hm.of_grows hadd.vars rfl⟩
    have hr : (source.referenceAt id).inProgress = false := by
      rw [← Bool.not_eq_true, inProgress_iff_mem_marked, hs]
      exact not_mem_nil
    change (s.addReference (source.referenceAt id)).1.marked = s.marked
    simp [marked_addReference, hr]

/-- Recording `copy` for `id` needs that `copy` is like the original. -/
theorem copiesFrom_insertCopy {copy : VariableId} (hlt : copy.index < s.vars.size)
    (hcopy : (s.variableAt copy).core = (source.variableAt id).copied) :
    CopiesFrom source origin s
      { s with importedVariables := s.importedVariables.insert (origin, id) copy } where
  within := within_of_scopes rfl .refl .refl .refl rfl rfl
  rests := ⟨.refl, .refl⟩
  marked _ := rfl
  mirrors source' origin' hsame hs v c hc := by
    rcases OrderedMap.of_get?_insert hc with ⟨hkey, rfl⟩ | hold
    · obtain ⟨rfl, rfl⟩ := Prod.mk.inj hkey
      obtain rfl := hsame rfl
      exact ⟨hlt, hcopy⟩
    · exact hs v c hold

/-- A new variable recorded as the copy of `id`. -/
theorem copiesFrom_addCopy {v : Variable} (hv : v.core = (source.variableAt id).copied) :
    CopiesFrom source origin s { (s.addVariable v).1 with
      importedVariables := s.importedVariables.insert (origin, id) (s.addVariable v).2 } := by
  refine (copiesFrom_addVariable s source origin).trans
    (copiesFrom_insertCopy _ source origin ?_ ?_)
  · simp [addVariable]
  · rw [variableAt_addVariable]
    exact (congrArg Variable.core (if_pos rfl)).trans hv

/-- A variable without its members is copied before any of them, so that a cycle of members ends. -/
theorem copiesFrom_importBare : CopiesFrom source origin s (s.importBare source origin id) := by
  have hf := copiesFrom_importFunction? s source origin (source.variableAt id).function
  have hr := copiesFrom_importReference?
    (s.importFunction? source origin (source.variableAt id).function).1 source origin
    (source.variableAt id).reference
  exact (hf.trans hr).trans (copiesFrom_addCopy _ source origin rfl)

/-- Members are set on a copy that is there; what identifies it stays. -/
theorem copiesFrom_linkMembers : CopiesFrom source origin s (s.linkMembers source origin id) :=
  copiesFrom_modifyVariable s source origin fun _ => rfl

/-- Copying a variable with all it reaches only adds copies. -/
theorem copiesFrom_importVariable (id : VariableId) :
    CopiesFrom source origin s (s.importVariable source origin id).1 := by
  rw [importVariable]
  split
  · exact .refl
  · exact (CopiesFrom.foldl (fun s v => copiesFrom_importBare s source origin) s).trans
      (CopiesFrom.foldl (fun s v => copiesFrom_linkMembers s source origin) _)

/-! ## The copy of a variable -/

theorem importedVariables_importFunction? (id : Option FunctionId) :
    (s.importFunction? source origin id).1.importedVariables = s.importedVariables := by
  cases id with
  | none => rfl
  | some id =>
    change (s.importFunction source origin id).1.importedVariables = s.importedVariables
    rcases importFunction_eq s source origin with h | ⟨-, spec, -, h⟩
    · rw [h]
    · rw [h, importedVariables_withCopy]

theorem importedVariables_importReference? (id : Option ReferenceId) :
    (s.importReference? source id).1.importedVariables = s.importedVariables := by
  cases id <;> rfl

/-- `importBare` records a copy of its own variable and of no other. -/
theorem mem_keys_importBare_iff {key : FileId × VariableId} :
    key ∈ (s.importBare source origin id).importedVariables.keys ↔
      key = (origin, id) ∨ key ∈ s.importedVariables.keys := by
  have hf := s.importedVariables_importFunction? source origin (source.variableAt id).function
  have hr := (s.importFunction? source origin
    (source.variableAt id).function).1.importedVariables_importReference?
    source (source.variableAt id).reference
  rw [← hf, ← hr]
  exact OrderedMap.mem_keys_insert

theorem mem_keys_foldl_importBare (h : id ∈ ids ∨ (origin, id) ∈ s.importedVariables.keys) :
    (origin, id) ∈ (ids.foldl (fun s v => s.importBare source origin v)
      s).importedVariables.keys := by
  induction ids generalizing s with
  | nil => exact h.resolve_left not_mem_nil
  | cons v ids ih =>
    refine ih (s.importBare source origin v) ?_
    rw [mem_keys_importBare_iff]
    rcases h with h | h
    · rcases mem_cons.1 h with rfl | h
      · exact .inr (.inl rfl)
      · exact .inl h
    · exact .inr (.inr h)

theorem importedVariables_foldl_linkMembers :
    (ids.foldl (fun s v => s.linkMembers source origin v) s).importedVariables =
      s.importedVariables := by
  induction ids generalizing s with
  | nil => rfl
  | cons v ids ih => exact ih (s.linkMembers source origin v)

/-- A pending variable is reached. -/
theorem mem_reached_of_pending {pending : List VariableId} (h : id ∈ pending) :
    id ∈ reached source pending [id] := by
  rw [reached, if_pos h]
  exact mem_cons_self

/-- The copy that `importVariable` returns is the one recorded for the variable. -/
theorem get?_importVariable (hid : id.index < source.vars.size) :
    (s.importVariable source origin id).1.importedVariables.get? (origin, id) =
      some (s.importVariable source origin id).2 := by
  rw [importVariable]
  cases hcopy : s.importedVariables.get? (origin, id) with
  | some copy => exact hcopy
  | none =>
    have hpending : id ∈ s.pendingImports source origin := by
      simp only [pendingImports, mem_filter, mem_map, mem_range, OrderedMap.contains, hcopy]
      exact ⟨⟨id.index, hid, rfl⟩, rfl⟩
    have hkey := s.mem_keys_foldl_importBare source origin
      (.inl (source.mem_reached_of_pending hpending))
    rw [← importedVariables_foldl_linkMembers _ source origin] at hkey
    obtain ⟨copy, hget⟩ := Option.isSome_iff_exists.1 (OrderedMap.mem_keys_iff.1 hkey)
    dsimp only
    rw [importedCopy, hget]
    rfl

/-- The copy of a variable of `source` is a variable of the new store and like its original. -/
theorem Mirrors.importVariable {s source : Store} {origin : FileId} (h : s.Mirrors source origin)
    (hid : id.index < source.vars.size) :
    (s.importVariable source origin id).2.index < (s.importVariable source origin id).1.vars.size ∧
      ((s.importVariable source origin id).1.variableAt
        (s.importVariable source origin id).2).core =
        (source.variableAt id).copied :=
  (s.copiesFrom_importVariable source origin id).mirrors source origin (fun _ => rfl) h _ _
    (s.get?_importVariable source origin hid)

/-! ## Several copies -/

/-- Copying the variables of a list, in order. -/
theorem copiesFrom_importAll {vs : List (String × VariableId)} :
    CopiesFrom source origin s (s.importAll source origin vs).1 := by
  induction vs generalizing s with
  | nil => exact .refl
  | cons v vs ih => exact (copiesFrom_importVariable s source origin v.2).trans (ih _)

/-! ## Values of loads -/

/-- The value of a load is copied from the store of the loaded file. -/
theorem copiesFrom_importModule (load : LoadKind) (a : FileAnalysis) :
    CopiesFrom a.store a.result.file s (s.importModule load a).1 := by
  rw [importModule]
  split
  · exact .refl
  · exact copiesFrom_importVariable s a.store _ _
  · exact copiesFrom_addVariable s a.store _
  · exact (copiesFrom_importAll s a.store _).trans (copiesFrom_addVariable _ a.store _)

/-- The value of a load within one store is a variable that is there, or one new variable. -/
theorem within_bindModule (load : LoadKind) (r : FileResult) :
    Within (fun _ => False) s (s.bindModule load r).1 := by
  rw [bindModule]
  split
  · exact .refl
  · exact .refl
  · exact within_addVariable _ s
  · exact within_addVariable _ s

theorem functions_bindModule :
    Grows Function.jumps s.functions (s.bindModule load r).1.functions := by
  rw [bindModule]
  split <;> exact .refl

theorem importedVariables_bindModule :
    (s.bindModule load r).1.importedVariables = s.importedVariables := by
  rw [bindModule]
  split <;> rfl

theorem size_references_bindModule :
    (s.bindModule load r).1.references.size = s.references.size := by
  rw [bindModule]
  split <;> rfl

end Store

end LuaAnalysis
