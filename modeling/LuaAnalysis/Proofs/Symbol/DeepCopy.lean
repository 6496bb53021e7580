import LuaAnalysis.Proofs.Symbol.SoundCopies
import Mathlib.Data.List.Forall2
import Mathlib.Data.List.Nodup
import Mathlib.Logic.Relation

/-!
# Copies are faithful

A store may copy variables of many files, one call after the other. Whatever the calls and however
the members of the originals are linked, the copies are again a picture of the originals
(`Faithful`): equal apart from scopes, owners and uses, with one copy for each original, so that
sharing and cycles are kept. In the middle of a call some copies still lack their members;
`Faithful` carries a list of these, which is empty between calls. `FaithfulOn` says it of the copies
from some files only: what a store has noted of other files has no influence on what it copies from
these.
-/

namespace LuaAnalysis.Store

open List OrderedMap

/-! ## What earlier symbols keep -/

/-- All symbols of `s` are in `s'` and are the same there, and so are the copies that it noted. -/
structure Keeps (s s' : Store) : Prop where
  scopes : Grows id s.scopes s'.scopes
  vars : Grows id s.vars s'.vars
  functions : Grows id s.functions s'.functions
  references : Grows id s.references s'.references
  variableCopies : ∀ key copy, s.importedVariables.get? key = some copy →
    s'.importedVariables.get? key = some copy
  functionCopies : ∀ key copy, s.importedFunctions.get? key = some copy →
    s'.importedFunctions.get? key = some copy

variable {v copy u : VariableId} {unlinked : List (FileId × VariableId)}
  {order pending : List VariableId}
variable {f : FunctionId} {s : Store}

namespace Keeps

variable {s s' s'' : Store}

theorem refl : s.Keeps s :=
  ⟨.refl, .refl, .refl, .refl, fun _ _ h => h, fun _ _ h => h⟩

theorem trans (h : s.Keeps s') (h' : s'.Keeps s'') : s.Keeps s'' where
  scopes := h.scopes.trans h'.scopes
  vars := h.vars.trans h'.vars
  functions := h.functions.trans h'.functions
  references := h.references.trans h'.references
  variableCopies key copy hcopy := h'.variableCopies key copy (h.variableCopies key copy hcopy)
  functionCopies key copy hcopy := h'.functionCopies key copy (h.functionCopies key copy hcopy)

theorem variableAt_eq (h : s.Keeps s') (hv : s.Owns v) : s'.variableAt v = s.variableAt v :=
  h.vars.core_eq v.index hv

theorem functionAt_eq (h : s.Keeps s') (hf : s.Owns f) : s'.functionAt f = s.functionAt f :=
  h.functions.core_eq f.index hf

variable {r : ReferenceId}

theorem referenceAt_eq (h : s.Keeps s') (hr : s.Owns r) : s'.referenceAt r = s.referenceAt r :=
  h.references.core_eq r.index hr

theorem owns_variable (h : s.Keeps s') (hv : s.Owns v) : s'.Owns v :=
  Nat.lt_of_lt_of_le hv h.vars.size_le

theorem owns_function (h : s.Keeps s') (hf : s.Owns f) : s'.Owns f :=
  Nat.lt_of_lt_of_le hf h.functions.size_le

theorem owns_reference (h : s.Keeps s') (hr : s.Owns r) : s'.Owns r :=
  Nat.lt_of_lt_of_le hr h.references.size_le

end Keeps

/-- One variable and one note have been added for each of `new`, which had no notes. -/
structure Notes (s : Store) (new : List (FileId × VariableId)) (s' : Store) : Prop where
  keys : s'.importedVariables.keys = s.importedVariables.keys ++ new
  nodup : new.Nodup
  fresh : ∀ key ∈ new, key ∉ s.importedVariables.keys
  size : s'.vars.size = s.vars.size + new.length

namespace Notes

variable {s s' s'' : Store} {new later : List (FileId × VariableId)}

theorem refl : s.Notes [] s :=
  ⟨(append_nil _).symm, nodup_nil, nofun, rfl⟩

theorem trans (h : s.Notes new s') (h' : s'.Notes later s'') : s.Notes (new ++ later) s'' where
  keys := by rw [h'.keys, h.keys, append_assoc]
  nodup := by
    refine List.Nodup.append h.nodup h'.nodup fun key hnew hlater => h'.fresh key hlater ?_
    rw [h.keys]
    exact mem_append_right _ hnew
  fresh key hmem := by
    rcases mem_append.1 hmem with hnew | hlater
    · exact h.fresh key hnew
    · intro hold
      refine h'.fresh key hlater ?_
      rw [h.keys]
      exact mem_append_left _ hold
  size := by
    rw [h'.size, h.size, length_append]
    omega

end Notes

/-! ## What a copy is -/

/-- The function `copy` is a copy of the function `f` of `source`: its head is that of `f`, and it
has no body. -/
structure CopiesFunction (s source : Store) (f copy : FunctionId) : Prop where
  owned : s.Owns copy
  contents : s.functionAt copy =
    { file := (source.functionAt f).file
      name := (source.functionAt f).name
      parent := none
      mainScope := (s.functionAt copy).mainScope
      depth := 0
      params := (source.functionAt f).params
      isVararg := (source.functionAt f).isVararg
      types := (source.functionAt f).types
      hasColon := (source.functionAt f).hasColon
      range := (source.functionAt f).range }

/-- The variable `copy` is a copy of the variable `v` of `source`, its members apart. It is no
longer a local, it is unused, and it has a function or a reference exactly if `v` has one. -/
structure CopiesVariable (s source : Store) (origin : FileId) (v copy : VariableId) : Prop where
  owned : s.Owns copy
  contents : s.variableAt copy =
    { source.variableAt v with
      scope := none
      owner := none
      function := (s.variableAt copy).function
      reference := (s.variableAt copy).reference
      members := (s.variableAt copy).members
      flags.used := false
      assignSites := [] }
  function : Option.Rel (fun f g => s.importedFunctions.get? (origin, f) = some g)
    (source.variableAt v).function (s.variableAt copy).function
  reference : Option.Rel (fun r r' => s.Owns r' ∧ s.referenceAt r' = source.referenceAt r)
    (source.variableAt v).reference (s.variableAt copy).reference

def CopiesMembers (s source : Store) (origin : FileId) (v copy : VariableId) : Prop :=
  List.Forall₂ (fun m m' => m'.1 = m.1 ∧ s.importedVariables.get? (origin, m.2) = some m'.2)
    (source.variableAt v).members.entries (s.variableAt copy).members.entries

/-- Every noted copy is a copy of the symbol that it is noted for, and of no other one. Only the
copies of `unlinked` may still lack their members. -/
structure Faithful (sources : FileId → Store) (unlinked : List (FileId × VariableId))
    (s : Store) : Prop where
  vars : ∀ origin v copy, s.importedVariables.get? (origin, v) = some copy →
    s.CopiesVariable (sources origin) origin v copy
  members : ∀ origin v copy, s.importedVariables.get? (origin, v) = some copy →
    (origin, v) ∉ unlinked →
    s.CopiesMembers (sources origin) origin v copy
  functions : ∀ origin f copy, s.importedFunctions.get? (origin, f) = some copy →
    s.CopiesFunction (sources origin) f copy
  vars_inj : ∀ key key' copy, s.importedVariables.get? key = some copy →
    s.importedVariables.get? key' = some copy → key = key'
  functions_inj : ∀ key key' copy, s.importedFunctions.get? key = some copy →
    s.importedFunctions.get? key' = some copy → key = key'

/-- The same of the copies from the files in `fs`. -/
structure FaithfulOn (fs : FileId → Prop) (sources : FileId → Store)
    (unlinked : List (FileId × VariableId)) (s : Store) : Prop where
  vars : ∀ origin v copy, fs origin → s.importedVariables.get? (origin, v) = some copy →
    s.CopiesVariable (sources origin) origin v copy
  members : ∀ origin v copy, fs origin → s.importedVariables.get? (origin, v) = some copy →
    (origin, v) ∉ unlinked →
    s.CopiesMembers (sources origin) origin v copy
  functions : ∀ origin f copy, fs origin → s.importedFunctions.get? (origin, f) = some copy →
    s.CopiesFunction (sources origin) f copy
  vars_inj : ∀ key key' copy, fs key.1 → fs key'.1 → s.importedVariables.get? key = some copy →
    s.importedVariables.get? key' = some copy → key = key'
  functions_inj : ∀ key key' copy, fs key.1 → fs key'.1 → s.importedFunctions.get? key = some copy →
    s.importedFunctions.get? key' = some copy → key = key'

variable {s s' source base : Store} {sources : FileId → Store} {origin : FileId}
variable {key : FileId × VariableId} {todo : List VariableId}
  {calls later : List (FileId × VariableId)} {origin : FileId}
variable {x : Variable} {fs : FileId → Prop}

theorem rel_imp {α β : Type} {R S : α → β → Prop} (hRS : ∀ a b, R a b → S a b) {o : Option α}
    {o' : Option β} (h : Option.Rel R o o') : Option.Rel S o o' := by
  cases h with
  | none => exact .none
  | some h => exact .some (hRS _ _ h)

theorem CopiesFunction.keep {copy : FunctionId} (h : s.CopiesFunction source f copy)
    (hkeep : s.Keeps s') : s'.CopiesFunction source f copy where
  owned := hkeep.owns_function h.owned
  contents := by
    rw [hkeep.functionAt_eq h.owned]
    exact h.contents

theorem CopiesVariable.keep (h : s.CopiesVariable source origin v copy) (hkeep : s.Keeps s') :
    s'.CopiesVariable source origin v copy := by
  have hcopy := hkeep.variableAt_eq h.owned
  refine ⟨hkeep.owns_variable h.owned, ?_, ?_, ?_⟩
  · rw [hcopy]
    exact h.contents
  · rw [hcopy]
    exact rel_imp (fun _ _ hf => hkeep.functionCopies _ _ hf) h.function
  · rw [hcopy]
    exact rel_imp (fun _ _ hr =>
      ⟨hkeep.owns_reference hr.1, (hkeep.referenceAt_eq hr.1).trans hr.2⟩) h.reference

theorem CopiesMembers.keep (h : s.CopiesMembers source origin v copy) (hcopy : s.Owns copy)
    (hkeep : s.Keeps s') : s'.CopiesMembers source origin v copy := by
  unfold CopiesMembers
  rw [hkeep.variableAt_eq hcopy]
  exact h.imp fun _ _ hm => ⟨hm.1, hkeep.variableCopies _ _ hm.2⟩

namespace FaithfulOn

variable {unlinked unlinked' : List (FileId × VariableId)}

theorem faithful (h : s.FaithfulOn (fun _ => True) sources unlinked) :
    s.Faithful sources unlinked :=
  ⟨fun o v copy => h.vars o v copy trivial, fun o v copy => h.members o v copy trivial,
    fun o f copy => h.functions o f copy trivial, fun k k' copy =>
    h.vars_inj k k' copy trivial trivial, fun k k' copy =>
    h.functions_inj k k' copy trivial trivial⟩

theorem of_nothing (hv : ∀ key ∈ s.importedVariables.keys, ¬ fs key.1)
    (hf : ∀ key ∈ s.importedFunctions.keys, ¬ fs key.1) : s.FaithfulOn fs sources [] := by
  have hv : ∀ key copy, fs key.1 → s.importedVariables.get? key ≠ some copy :=
    fun key _ hkey hget => hv key (mem_keys_of_get? hget) hkey
  have hf : ∀ key copy, fs key.1 → s.importedFunctions.get? key ≠ some copy :=
    fun key _ hkey hget => hf key (mem_keys_of_get? hget) hkey
  exact ⟨fun _ _ _ ho h => absurd h (hv _ _ ho), fun _ _ _ ho h => absurd h (hv _ _ ho),
    fun _ _ _ ho h => absurd h (hf _ _ ho), fun _ _ _ ho _ h => absurd h (hv _ _ ho),
    fun _ _ _ ho _ h => absurd h (hf _ _ ho)⟩

theorem weaken (h : s.FaithfulOn fs sources unlinked) (hsub : unlinked ⊆ unlinked') :
    s.FaithfulOn fs sources unlinked' :=
  { h with
    members := fun o v copy ho hcopy hnot =>
      h.members o v copy ho hcopy fun hmem => hnot (hsub hmem) }

theorem keep (h : s.FaithfulOn fs sources unlinked) (hkeep : s.Keeps s')
    (hvars : s'.importedVariables = s.importedVariables)
    (hfunctions : ∀ origin f copy, fs origin → s'.importedFunctions.get? (origin, f) = some copy →
      s'.CopiesFunction (sources origin) f copy)
    (hinj : ∀ key key' copy, fs key.1 → fs key'.1 → s'.importedFunctions.get? key = some copy →
      s'.importedFunctions.get? key' = some copy → key = key') : s'.FaithfulOn fs sources
        unlinked where
  vars o v copy ho hcopy := (h.vars o v copy ho (hvars ▸ hcopy)).keep hkeep
  members o v copy ho hcopy hnot := by
    rw [hvars] at hcopy
    exact (h.members o v copy ho hcopy hnot).keep (h.vars o v copy ho hcopy).owned hkeep
  functions := hfunctions
  vars_inj := by
    rw [hvars]
    exact h.vars_inj
  functions_inj := hinj

end FaithfulOn

/-! ## Functions -/

variable {types : FunctionTypes} {spec : FunctionSpec}

theorem keeps_withCopy {key : FileId × FunctionId} (hkey : key ∉ s.importedFunctions.keys)
    (hscope : spec.parentScope = none) : s.Keeps (s.withCopy key spec types) where
  scopes := by
    refine ⟨by simp [withCopy, modifyFunction], fun i hi => ?_⟩
    have hat := s.scopeAt_addFunction spec (by simp [hscope]) ⟨i⟩
    rw [if_neg (Nat.ne_of_lt hi), if_neg (by simp [hscope])] at hat
    exact hat
  vars := .of_eq (by simp [withCopy, modifyFunction])
  functions := by
    obtain ⟨f, hf⟩ := s.addFunction_eq spec
    have hfunctions : (s.withCopy key spec types).functions =
        (s.functions.push f).modify s.functions.size ({ · with types }) := by
      change ((s.addFunction spec).1.functions.modify s.functions.size ({ · with types })) = _
      rw [hf, functions_addScope]
    rw [hfunctions]
    exact (Grows.push id s.functions f).modify_new (Nat.le_refl _) _
  references := .of_eq (by simp [withCopy, modifyFunction])
  variableCopies k copy hcopy := by
    rw [importedVariables_withCopy]
    exact hcopy
  functionCopies k copy hcopy := by
    change ((s.addFunction spec).1.importedFunctions.insert key _).get? k = some copy
    rw [importedFunctions_addFunction]
    exact get?_insert_of_get? hkey hcopy

theorem functionAt_withCopy {key : FileId × FunctionId} :
    (s.withCopy key spec types).functionAt ⟨s.functions.size⟩ =
      { (s.addFunction spec).1.functionAt (s.addFunction spec).2 with types } := by
  change ((s.addFunction spec).1.modifyFunction ⟨s.functions.size⟩ _).functionAt
    ⟨s.functions.size⟩ = _
  rw [functionAt_modifyFunction, if_pos ⟨rfl, by simp⟩]
  rfl

/-- The second store keeps what is in the first one, and if the copies there are faithful, so are
all copies now, but those of `new` may lack their members. -/
structure Pictures (fs : FileId → Prop) (sources : FileId → Store)
    (new : List (FileId × VariableId)) (s s' : Store) : Prop where
  keeps : s.Keeps s'
  faithful : ∀ unlinked, new ⊆ unlinked → s.FaithfulOn fs sources unlinked →
    s'.FaithfulOn fs sources unlinked

theorem Pictures.refl : Pictures fs sources [] s s :=
  ⟨.refl, fun _ _ h => h⟩

theorem Pictures.trans {s'' : Store} {new : List (FileId × VariableId)}
    (h : Pictures fs sources new s s') (h' : Pictures fs sources later s' s'') :
    Pictures fs sources (new ++ later) s s'' where
  keeps := h.keeps.trans h'.keeps
  faithful unlinked hsub hs :=
    have ⟨hnew, hlater⟩ := append_subset.1 hsub
    h'.faithful unlinked hlater (h.faithful unlinked hnew hs)

theorem pictures_importFunction :
    Pictures fs sources [] s (s.importFunction (sources origin) origin f).1 ∧
      (s.importFunction (sources origin) origin f).1.importedFunctions.get? (origin, f) =
        some (s.importFunction (sources origin) origin f).2 := by
  rw [Store.importFunction]
  cases hcopy : s.importedFunctions.get? (origin, f) with
  | some copy => exact ⟨.refl, hcopy⟩
  | none =>
    let spec : FunctionSpec :=
      { file := ((sources origin).functionAt f).file
        name := ((sources origin).functionAt f).name
        params := ((sources origin).functionAt f).params
        isVararg := ((sources origin).functionAt f).isVararg
        hasColon := ((sources origin).functionAt f).hasColon
        range := ((sources origin).functionAt f).range }
    change Pictures fs sources [] s
      (s.withCopy (origin, f) spec ((sources origin).functionAt f).types) ∧
      (s.withCopy (origin, f) spec ((sources origin).functionAt f).types).importedFunctions.get?
      (origin, f) =
        some ⟨s.functions.size⟩
    set s' := s.withCopy (origin, f) spec ((sources origin).functionAt f).types with hs'
    have hkey : (origin, f) ∉ s.importedFunctions.keys := not_mem_keys_iff.2 hcopy
    have hkeep : s.Keeps s' := keeps_withCopy hkey rfl
    have hnoted : s'.importedFunctions =
        s.importedFunctions.insert (origin, f) ⟨s.functions.size⟩ := by
      change (s.addFunction spec).1.importedFunctions.insert (origin, f) _ = _
      rw [importedFunctions_addFunction]
    have hvars : s'.importedVariables = s.importedVariables := s.importedVariables_withCopy
    have hnew : s'.CopiesFunction (sources origin) f ⟨s.functions.size⟩ := by
      refine ⟨?_, ?_⟩
      · rw [owns_function_iff]
        simp [s', withCopy]
      · rw [hs', functionAt_withCopy, functionAt_addFunction_new]
    refine ⟨⟨hkeep, fun _ _ h => h.keep hkeep hvars ?_ ?_⟩, ?_⟩
    · intro o g copy ho hget
      rw [hnoted] at hget
      rcases of_get?_insert hget with ⟨hk, rfl⟩ | hold
      · obtain ⟨rfl, rfl⟩ := Prod.mk.inj hk
        exact hnew
      · exact (h.functions o g copy ho hold).keep hkeep
    · rw [hnoted]
      exact injective_insert h.functions_inj fun key hin hget =>
        Nat.lt_irrefl _ (h.functions key.1 key.2 _ hin hget).owned
    · rw [hnoted, get?_insert, if_pos rfl]

theorem pictures_importFunction? {f : Option FunctionId} :
    Pictures fs sources [] s (s.importFunction? (sources origin) origin f).1 ∧
    Option.Rel (fun g copy =>
        (s.importFunction? (sources origin) origin f).1.importedFunctions.get? (origin, g) =
          some copy) f (s.importFunction? (sources origin) origin f).2 := by
  cases f with
  | none => exact ⟨.refl, .none⟩
  | some f =>
    obtain ⟨hpictures, hcopy⟩ := pictures_importFunction
    exact ⟨hpictures, .some hcopy⟩

theorem vars_importFunction? {f : Option FunctionId} :
    (s.importFunction? source origin f).1.vars = s.vars := by
  cases f with
  | none => rfl
  | some f =>
    change (s.importFunction source origin f).1.vars = s.vars
    rcases importFunction_eq s source origin with h | ⟨-, spec, -, h⟩
    · rw [h]
    · rw [h]
      simp [withCopy, modifyFunction]

/-! ## References -/

theorem keeps_addReference (s : Store) (r : Reference) : s.Keeps (s.addReference r).1 :=
  ⟨.refl, .refl, .refl, .push _ _ _, fun _ _ h => h, fun _ _ h => h⟩

theorem pictures_importReference? {source : Store} {r : Option ReferenceId} :
    Pictures fs sources [] s (s.importReference? source r).1 ∧ Option.Rel (fun x copy =>
        (s.importReference? source r).1.Owns copy ∧
          (s.importReference? source r).1.referenceAt copy = source.referenceAt x) r
            (s.importReference? source r).2 := by
  cases r with
  | none => exact ⟨.refl, .none⟩
  | some r =>
    have hkeep := s.keeps_addReference (source.referenceAt r)
    refine ⟨⟨hkeep, fun _ _ h =>
      h.keep hkeep rfl (fun o f copy ho hcopy => (h.functions o f copy ho hcopy).keep hkeep)
      h.functions_inj⟩, .some ⟨s.owns_addReference, ?_⟩⟩
    exact (s.referenceAt_addReference _ _).trans (if_pos rfl)

theorem vars_importReference? {r : Option ReferenceId} :
    (s.importReference? source r).1.vars = s.vars := by
  cases r <;> rfl

/-! ## Variables without their members -/

def withVariable (s : Store) (key : FileId × VariableId) (x : Variable) : Store :=
  { (s.addVariable x).1 with importedVariables := s.importedVariables.insert key ⟨s.vars.size⟩ }

theorem keeps_withVariable (hkey : key ∉ s.importedVariables.keys) :
    s.Keeps (s.withVariable key x) :=
  ⟨.refl, .push _ _ _, .refl, .refl, fun _ _ h => get?_insert_of_get? hkey h, fun _ _ h => h⟩

theorem variableAt_withVariable : (s.withVariable key x).variableAt ⟨s.vars.size⟩ = x :=
  s.variableAt_addVariable.trans (if_pos rfl)

theorem pictures_withVariable (hkey : (origin, v) ∉ s.importedVariables.keys)
    (hcopy : (s.withVariable (origin, v) x).CopiesVariable (sources origin) origin v
      ⟨s.vars.size⟩) : Pictures fs sources [(origin, v)] s (s.withVariable (origin, v) x) := by
  have hkeep : s.Keeps (s.withVariable (origin, v) x) := keeps_withVariable hkey
  refine ⟨hkeep, fun unlinked hsub h => ⟨?_, ?_, ?_, ?_, h.functions_inj⟩⟩
  · intro o u copy ho hget
    rcases of_get?_insert hget with ⟨hk, rfl⟩ | hold
    · obtain ⟨rfl, rfl⟩ := Prod.mk.inj hk
      exact hcopy
    · exact (h.vars o u copy ho hold).keep hkeep
  · intro o u copy ho hget hnot
    rcases of_get?_insert hget with ⟨hk, -⟩ | hold
    · exact absurd (hsub (mem_singleton.2 hk.symm)) hnot
    · exact (h.members o u copy ho hold hnot).keep (h.vars o u copy ho hold).owned hkeep
  · intro o f copy ho hget
    exact (h.functions o f copy ho hget).keep hkeep
  · exact injective_insert h.vars_inj fun key hin hget =>
      Nat.lt_irrefl _ (h.vars key.1 key.2 _ hin hget).owned

theorem pictures_importBare (hkey : (origin, v) ∉ s.importedVariables.keys) :
    Pictures fs sources [(origin, v)] s (s.importBare (sources origin) origin v) := by
  obtain ⟨hfirst, hfunction⟩ :=
    @pictures_importFunction? s sources origin fs ((sources origin).variableAt v).function
  set s₁ :=
    (s.importFunction? (sources origin) origin ((sources origin).variableAt v).function).1 with hs₁
  obtain ⟨hnext, hreference⟩ :=
    @pictures_importReference? s₁ sources fs (sources origin)
    ((sources origin).variableAt v).reference
  set s₂ :=
    (s₁.importReference? (sources origin) ((sources origin).variableAt v).reference).1 with hs₂
  have hkey₂ : (origin, v) ∉ s₂.importedVariables.keys := by
    rw [hs₂, importedVariables_importReference?, hs₁, importedVariables_importFunction?]
    exact hkey
  refine (hfirst.trans hnext).trans (pictures_withVariable hkey₂ ⟨?_, ?_, ?_, ?_⟩)
  · rw [owns_variable_iff]
    simp [Store.withVariable, addVariable]
  · rw [variableAt_withVariable]
  · rw [variableAt_withVariable]
    exact rel_imp (fun _ _ hcopy => hnext.keeps.functionCopies _ _ hcopy) hfunction
  · rw [variableAt_withVariable]
    exact hreference

theorem importBare_eq (s : Store) {source : Store} {v : VariableId} :
    ∃ (s' : Store) (x : Variable), s'.vars = s.vars ∧ s'.importedVariables = s.importedVariables ∧
      x.members = {} ∧ s.importBare source origin v = s'.withVariable (origin, v) x :=
  ⟨((s.importFunction? source origin (source.variableAt v).function).1.importReference? source
      (source.variableAt v).reference).1, _,
    vars_importReference?.trans vars_importFunction?,
    (importedVariables_importReference? _ _ _).trans
    (importedVariables_importFunction? _ _ _ _), rfl, rfl⟩

theorem importedVariables_importBare :
    (s.importBare source origin v).importedVariables =
      s.importedVariables.insert (origin, v) ⟨s.vars.size⟩ := by
  obtain ⟨s', x, hvars, hcopies, -, heq⟩ := s.importBare_eq
  rw [heq, withVariable, hvars, hcopies]

theorem size_vars_importBare {source : Store} {v : VariableId} :
    (s.importBare source origin v).vars.size = s.vars.size + 1 := by
  obtain ⟨s', x, hvars, -, -, heq⟩ := s.importBare_eq
  rw [heq, ← hvars]
  exact Array.size_push x

theorem not_mem_keys_importBare (hu : (origin, u) ∉ s.importedVariables.keys) (hne : u ≠ v) :
    (origin, u) ∉ (s.importBare source origin v).importedVariables.keys := by
  rw [mem_keys_importBare_iff, not_or]
  exact ⟨fun heq => hne (congrArg Prod.snd heq), hu⟩

theorem notes_importBare {source : Store} (hkey : (origin, v) ∉ s.importedVariables.keys) :
    s.Notes [(origin, v)] (s.importBare source origin v) where
  keys := by rw [importedVariables_importBare, keys_insert_of_not_mem hkey]
  nodup := nodup_singleton _
  fresh := by
    intro key hmem
    rw [mem_singleton.1 hmem]
    exact hkey
  size := size_vars_importBare

theorem pictures_foldl_importBare (s : Store) (sources : FileId → Store)
    (hkeys : ∀ v ∈ order, (origin, v) ∉ s.importedVariables.keys) (hnodup : order.Nodup) :
    Pictures fs sources (order.map (Prod.mk origin)) s
      (order.foldl (fun s v => s.importBare (sources origin) origin v) s) ∧
      s.Notes (order.map (Prod.mk origin))
        (order.foldl (fun s v => s.importBare (sources origin) origin v) s) := by
  induction order generalizing s with
  | nil => exact ⟨.refl, .refl⟩
  | cons v order ih =>
    rw [forall_mem_cons] at hkeys
    rw [nodup_cons] at hnodup
    have hrest : ∀ u ∈ order,
      (origin, u) ∉ (s.importBare (sources origin) origin v).importedVariables.keys :=
      fun u hu => not_mem_keys_importBare (hkeys.2 u hu) (ne_of_mem_of_not_mem hu hnodup.1)
    obtain ⟨hall, hnotes⟩ := ih _ hrest hnodup.2
    exact ⟨(pictures_importBare hkeys.1).trans hall, (notes_importBare hkeys.1).trans hnotes⟩

theorem size_vars_foldl_importBare (s : Store) {source : Store} :
    (order.foldl (fun s v => s.importBare source origin v) s).vars.size =
      s.vars.size + order.length := by
  induction order generalizing s with
  | nil => rfl
  | cons v order ih =>
    rw [foldl_cons, ih, size_vars_importBare, length_cons]
    omega

theorem get?_foldl_importBare
    (hget : (order.foldl (fun s v => s.importBare source origin v) s).importedVariables.get? key =
      some copy) : s.importedVariables.get? key = some copy ∨
      s.vars.size ≤ copy.index ∧ copy.index < s.vars.size + order.length := by
  induction order generalizing s with
  | nil => exact .inl hget
  | cons v order ih =>
    rw [length_cons]
    rcases ih hget with hold | hnew
    · rw [importedVariables_importBare] at hold
      rcases of_get?_insert hold with ⟨-, rfl⟩ | hold
      · exact .inr ⟨Nat.le_refl _, Nat.lt_add_of_pos_right (Nat.succ_pos _)⟩
      · exact .inl hold
    · rw [size_vars_importBare] at hnew
      exact .inr (by omega)

/-! ## Members -/

theorem get?_importedCopy (s : Store) (hkey : (origin, v) ∈ s.importedVariables.keys) :
    s.importedVariables.get? (origin, v) = some (s.importedCopy origin v) := by
  obtain ⟨copy, hcopy⟩ := Option.isSome_iff_exists.1 (mem_keys_iff.1 hkey)
  rw [importedCopy, hcopy]
  rfl

theorem Notes.new_foldl_importBare
    (h : s.Notes (order.map (Prod.mk origin))
      (order.foldl (fun s v => s.importBare source origin v) s)) :
    ∀ v ∈ order, ∃ copy,
      (order.foldl (fun s v => s.importBare source origin v) s).importedVariables.get? (origin, v) =
        some copy ∧
        s.vars.size ≤ copy.index := by
  intro v hv
  have hget := get?_importedCopy _ (h.keys ▸ mem_append_right _ (mem_map_of_mem hv))
  refine ⟨_, hget, ((get?_foldl_importBare hget).resolve_left fun hold =>
    h.fresh _ (mem_map_of_mem hv) ?_).1⟩
  exact mem_keys_of_get? hold

theorem linkMembers_eq (hcopy : s.importedVariables.get? (origin, v) = some copy) :
    s.linkMembers source origin v = s.modifyVariable copy fun x =>
      { x with members := (source.variableAt v).members.mapValues (s.importedCopy origin) } := by
  unfold linkMembers
  have hmine : s.importedCopy origin v = copy := by rw [importedCopy, hcopy]; rfl
  rw [hmine]

theorem Keeps.linkMembers (h : base.Keeps s)
    (hcopy : s.importedVariables.get? (origin, v) = some copy)
    (hnew : base.vars.size ≤ copy.index) : base.Keeps (s.linkMembers source origin v) := by
  rw [linkMembers_eq hcopy]
  have hvars := h.vars.modify_new hnew fun x =>
    { x with members := (source.variableAt v).members.mapValues (s.importedCopy origin) }
  exact { h with vars := hvars }

theorem FaithfulOn.linkMembers (h : s.FaithfulOn fs sources ((origin, v) :: unlinked))
    (hin : fs origin) (hcopy : s.importedVariables.get? (origin, v) = some copy)
    (hmembers : ∀ m ∈ ((sources origin).variableAt v).members.values,
      (origin, m) ∈ s.importedVariables.keys) :
    (s.linkMembers (sources origin) origin v).FaithfulOn fs sources unlinked := by
  rw [linkMembers_eq hcopy]
  set members :=
    ((sources origin).variableAt v).members.mapValues (s.importedCopy origin) with hmapped
  set s' := s.modifyVariable copy fun x => { x with members } with hs'
  have howned := (h.vars origin v copy hin hcopy).owned
  have hself : s'.variableAt copy = { s.variableAt copy with members } := by
    rw [hs', variableAt_modifyVariable, if_pos ⟨rfl, howned⟩]
  have hother : ∀ o u c, fs o → s.importedVariables.get? (o, u) = some c → (o, u) ≠ (origin, v) →
      s'.variableAt c = s.variableAt c := by
    intro o u c ho hc hne
    rw [hs', variableAt_modifyVariable, if_neg]
    rintro ⟨heq, -⟩
    obtain rfl : copy = c := congrArg VariableId.mk heq
    exact hne (h.vars_inj _ _ _ ho hin hc hcopy)
  refine ⟨?_, ?_, ?_, h.vars_inj, h.functions_inj⟩
  · intro o u c ho hc
    have hold := h.vars o u c ho hc
    have hbound : s'.Owns c := by
      rw [owns_variable_iff, hs', size_vars_modifyVariable]
      exact hold.owned
    obtain ⟨ms, hc'⟩ : ∃ ms, s'.variableAt c = { s.variableAt c with members := ms } := by
      rw [hs', variableAt_modifyVariable]
      split <;> exact ⟨_, rfl⟩
    refine ⟨hbound, ?_, ?_, ?_⟩
    · rw [hc']
      exact congrArg (fun x : Variable => { x with members := ms }) hold.contents
    · rw [hc']
      exact hold.function
    · rw [hc']
      exact hold.reference
  · intro o u c ho hc hnot
    by_cases heq : (o, u) = (origin, v)
    · obtain ⟨rfl, rfl⟩ := Prod.mk.inj heq
      obtain rfl : copy = c := Option.some.inj (hcopy.symm.trans hc)
      unfold CopiesMembers
      rw [hself, hmapped]
      refine forall₂_map_right_iff.2 (forall₂_same.2 fun m hm => ⟨rfl, ?_⟩)
      exact s.get?_importedCopy (hmembers m.2 (mem_map.2 ⟨m, hm, rfl⟩))
    · have hmem : (o, u) ∉ (origin, v) :: unlinked := by
        rw [mem_cons, not_or]
        exact ⟨heq, hnot⟩
      have hold := h.members o u c ho hc hmem
      unfold CopiesMembers at hold ⊢
      rw [hother o u c ho hc heq]
      exact hold
  · intro o f c ho hc
    exact ⟨(h.functions o f c ho hc).owned, (h.functions o f c ho hc).contents⟩

theorem Keeps.foldl_linkMembers (hkeep : base.Keeps s) (sources : FileId → Store)
    (hnew : ∀ v ∈ order, ∃ copy, s.importedVariables.get? (origin, v) = some copy ∧
      base.vars.size ≤ copy.index) :
    base.Keeps (order.foldl (fun s v => s.linkMembers (sources origin) origin v) s) ∧
      (fs origin → s.FaithfulOn fs sources (order.map (Prod.mk origin)) → (∀ v ∈ order,
        ∀ m ∈ ((sources origin).variableAt v).members.values,
          (origin, m) ∈ s.importedVariables.keys) →
      (order.foldl (fun s v => s.linkMembers (sources origin) origin v) s).FaithfulOn fs
        sources []) := by
  induction order generalizing s with
  | nil => exact ⟨hkeep, fun _ h _ => h⟩
  | cons v order ih =>
    rw [forall_mem_cons] at hnew
    obtain ⟨⟨copy, hcopy, hlt⟩, hnew⟩ := hnew
    obtain ⟨hkeepAll, hfaithful⟩ := ih (hkeep.linkMembers hcopy hlt) hnew
    refine ⟨hkeepAll, fun hin h hmembers => ?_⟩
    rw [forall_mem_cons] at hmembers
    exact hfaithful hin (h.linkMembers hin hcopy hmembers.1) hmembers.2

theorem size_vars_foldl_linkMembers (s : Store) {source : Store} {order : List VariableId} :
    (order.foldl (fun s v => s.linkMembers source origin v) s).vars.size = s.vars.size := by
  induction order generalizing s with
  | nil => rfl
  | cons v order ih => exact (ih (s.linkMembers source origin v)).trans size_vars_modifyVariable

/-! ## What a variable reaches -/

/-- The second variable can be reached from the first one through members. -/
def Reaches (source : Store) : VariableId → VariableId → Prop :=
  Relation.ReflTransGen fun v m => m ∈ (source.variableAt v).members.values

theorem mem_pending_of_mem_reached (hv : v ∈ reached source pending todo) : v ∈ pending := by
  fun_induction reached source pending todo with
  | case1 => cases hv
  | case2 pending u todo hu ih =>
    rcases mem_cons.1 hv with rfl | hv
    · exact hu
    · exact mem_of_mem_erase (ih hv)
  | case3 pending u todo hu ih => exact ih hv

theorem nodup_reached (hpending : pending.Nodup) : (reached source pending todo).Nodup := by
  fun_induction reached source pending todo with
  | case1 => exact nodup_nil
  | case2 pending u todo hu ih =>
    rw [nodup_cons]
    refine ⟨fun hmem => ?_, ih (hpending.erase u)⟩
    exact hpending.not_mem_erase (mem_pending_of_mem_reached hmem)
  | case3 pending u todo hu ih => exact ih hpending

theorem reaches_of_mem_reached (hv : v ∈ reached source pending todo) :
    ∃ u ∈ todo, source.Reaches u v := by
  fun_induction reached source pending todo with
  | case1 => cases hv
  | case2 pending u todo hu ih =>
    rcases mem_cons.1 hv with rfl | hv
    · exact ⟨v, mem_cons_self, .refl⟩
    · obtain ⟨m, hm, hreach⟩ := ih hv
      rcases mem_append.1 hm with hm | hm
      · exact ⟨u, mem_cons_self, .head hm hreach⟩
      · exact ⟨m, mem_cons_of_mem u hm, hreach⟩
  | case3 pending u todo hu ih =>
    obtain ⟨m, hm, hreach⟩ := ih hv
    exact ⟨m, mem_cons_of_mem u hm, hreach⟩

theorem nodup_pendingImports (s : Store) : (s.pendingImports source origin).Nodup := by
  refine List.Nodup.filter _ (List.Nodup.map ?_ nodup_range)
  intro i j h
  exact congrArg VariableId.index h

/-! ## Variables with all that they reach -/

def OwnsMembers (source : Store) : Prop :=
  ∀ v : VariableId, source.Owns v → source.Owns (source.variableAt v).members

theorem keeps_importVariable (s : Store) (sources : FileId → Store) (origin : FileId)
    (id : VariableId) : s.Keeps (s.importVariable (sources origin) origin id).1 ∧
      (∃ order : List VariableId, (∀ v ∈ order, (sources origin).Reaches id v) ∧
        s.Notes (order.map (Prod.mk origin)) (s.importVariable (sources origin) origin id).1) ∧
      ((sources origin).OwnsMembers → fs origin → s.FaithfulOn fs sources [] →
        (s.importVariable (sources origin) origin id).1.FaithfulOn fs sources []) := by
  rw [Store.importVariable]
  split
  · exact ⟨.refl, ⟨[], by simp, .refl⟩, fun _ _ h => h⟩
  · set order := reached (sources origin) (s.pendingImports (sources origin) origin) [id]
    have hpending : ∀ v ∈ order, (sources origin).Owns v ∧ (origin, v) ∉ s.importedVariables.keys :=
      fun v hv => mem_pendingImports_iff.1 (mem_pending_of_mem_reached hv)
    have hkeys := fun v hv => (hpending v hv).2
    have hnodup : order.Nodup := nodup_reached (nodup_pendingImports s)
    obtain ⟨hbare, hnotes⟩ := s.pictures_foldl_importBare sources hkeys hnodup
    obtain ⟨hkeep, hlinked⟩ := hbare.keeps.foldl_linkMembers sources hnotes.new_foldl_importBare
    refine ⟨hkeep, ⟨order, ?_, ?_⟩, fun hsource hin h => ?_⟩
    · intro v hv
      obtain ⟨u, hu, hreach⟩ := reaches_of_mem_reached hv
      rwa [mem_singleton.1 hu] at hreach
    · refine ⟨?_, hnotes.nodup, hnotes.fresh, ?_⟩
      · rw [importedVariables_foldl_linkMembers, hnotes.keys]
      · rw [size_vars_foldl_linkMembers, hnotes.size]
    · refine hlinked hin (hbare.faithful _ (List.Subset.refl _) (h.weaken (nil_subset _)))
        fun v hv m hm => ?_
      rw [hnotes.keys, mem_append]
      -- A member is copied along with the variable, unless it has a copy already.
      by_cases hcopied : (origin, m) ∈ s.importedVariables.keys
      · exact .inl hcopied
      · have hown : (sources origin).Owns m := hsource v (hpending v hv).1 m hm
        exact .inr (mem_map_of_mem
          (mem_reached_of_member hv hm (mem_pendingImports_iff.2 ⟨hown, hcopied⟩)))

theorem FaithfulOn.mem_keys_of_reaches (h : s.FaithfulOn fs sources []) (hin : fs origin)
    (hu : (origin, u) ∈ s.importedVariables.keys) (hreach : (sources origin).Reaches u v) :
    (origin, v) ∈ s.importedVariables.keys := by
  induction hreach with
  | refl => exact hu
  | @tail v m _ hm ih =>
    have hcopies := h.members origin v _ hin (s.get?_importedCopy ih) not_mem_nil
    obtain ⟨e, he, rfl⟩ := mem_map.1 hm
    obtain ⟨i, rfl⟩ := get_of_mem he
    obtain ⟨hlength, hat⟩ := forall₂_iff_get.1 hcopies
    exact mem_keys_of_get? (hat i.1 i.2 (hlength ▸ i.2)).2

/-! ## Calls one after the other -/

def importEach (s : Store) (sources : FileId → Store) :
    List (FileId × VariableId) → Store × List VariableId
  | [] => (s, [])
  | (origin, v) :: calls =>
    let (s, copy) := s.importVariable (sources origin) origin v
    let (s, copies) := s.importEach sources calls
    (s, copy :: copies)

theorem importEach_append (s : Store) {sources : FileId → Store} :
    (s.importEach sources (calls ++ later)).1 =
      ((s.importEach sources calls).1.importEach sources later).1 := by
  induction calls generalizing s with
  | nil => rfl
  | cons call calls ih => exact ih (s.importVariable (sources call.1) call.1 call.2).1

section Calls

variable (hsources : ∀ origin, (sources origin).OwnsMembers)

include hsources

theorem FaithfulOn.importEach (h : s.FaithfulOn (fun _ => True) sources []) :
    (s.importEach sources calls).1.FaithfulOn (fun _ => True) sources [] ∧
    s.Keeps (s.importEach sources calls).1 ∧
      ∃ new, (∀ key ∈ new, ∃ call ∈ calls, call.1 = key.1 ∧ (sources key.1).Reaches call.2 key.2) ∧
        s.Notes new (s.importEach sources calls).1 := by
  induction calls generalizing s with
  | nil => exact ⟨h, .refl, [], nofun, .refl⟩
  | cons call calls ih =>
    obtain ⟨hkeep, ⟨order, hreach, hnotes⟩, hfaithful⟩ :=
      s.keeps_importVariable sources call.1 call.2
    have hfirst := hfaithful (hsources call.1) trivial h
    obtain ⟨hrest, hkeepRest, new, hnew, hnotesRest⟩ := ih hfirst
    refine ⟨hrest, hkeep.trans hkeepRest, _, ?_, hnotes.trans hnotesRest⟩
    intro key hkey
    rcases mem_append.1 hkey with hkey | hkey
    · obtain ⟨v, hv, rfl⟩ := mem_map.1 hkey
      exact ⟨call, mem_cons_self, rfl, hreach v hv⟩
    · obtain ⟨c, hc, hreaches⟩ := hnew key hkey
      exact ⟨c, mem_cons_of_mem call hc, hreaches⟩

theorem FaithfulOn.copies_importEach (h : s.FaithfulOn (fun _ => True) sources [])
    (hcalls : ∀ call ∈ calls, (sources call.1).Owns call.2) :
    calls.map (s.importEach sources calls).1.importedVariables.get? =
      (s.importEach sources calls).2.map some := by
  induction calls generalizing s with
  | nil => rfl
  | cons call calls ih =>
    rw [forall_mem_cons] at hcalls
    have hfirst := (s.keeps_importVariable sources call.1 call.2).2.2 (hsources call.1) trivial h
    obtain ⟨-, hkeepRest, -⟩ := hfirst.importEach hsources
    have hcopy := s.get?_importVariable (sources call.1) call.1 hcalls.1
    exact congrArg₂ List.cons (hkeepRest.variableCopies _ _ hcopy) (ih hfirst hcalls.2)

end Calls

/-- Copying is faithful, whatever the calls. Each call has an answer, which is the copy that the
store notes for the variable, so equal calls have equal answers and other calls have other answers;
every noted copy is a picture of its original; exactly what the calls reach through members is
copied, each variable once; and a call changes nothing that was there before it. -/
theorem importEach_faithful (sources : FileId → Store)
    (hsources : ∀ origin, (sources origin).OwnsMembers) (s : Store)
    (hvars : s.importedVariables = {}) (hfunctions : s.importedFunctions = {})
    (calls : List (FileId × VariableId)) (hcalls : ∀ call ∈ calls, (sources call.1).Owns call.2) :
    let after := (s.importEach sources calls).1
    let copies := (s.importEach sources calls).2
    after.Faithful sources [] ∧
      calls.map after.importedVariables.get? = copies.map some ∧
      (∀ i j, i < calls.length → j < calls.length →
        (copies[i]? = copies[j]? ↔ calls[i]? = calls[j]?)) ∧
      (∀ key, key ∈ after.importedVariables.keys ↔
        ∃ call ∈ calls, call.1 = key.1 ∧ (sources key.1).Reaches call.2 key.2) ∧
      after.importedVariables.keys.Nodup ∧
      after.vars.size = s.vars.size + after.importedVariables.size ∧
      ∀ earlier later, calls = earlier ++ later → (s.importEach sources earlier).1.Keeps after := by
  intro after copies
  have hstart : s.FaithfulOn (fun _ => True) sources [] :=
    .of_nothing (by simp [hvars, OrderedMap.keys]) (by simp [hfunctions, OrderedMap.keys])
  obtain ⟨hfaithful, -, new, hnew, hnotes⟩ := hstart.importEach hsources
  have hcopies := hstart.copies_importEach hsources hcalls
  have hkeys : after.importedVariables.keys = new := by
    rw [hnotes.keys, hvars]
    rfl
  have hnoted : ∀ i (hi : i < calls.length), ∃ copy, copies[i]? = some copy ∧
      after.importedVariables.get? calls[i] = some copy := by
    intro i hi
    have hat := congrArg (·[i]?) hcopies
    simp only [getElem?_map, getElem?_eq_getElem hi, Option.map_some] at hat
    obtain ⟨copy, hcopy, hsome⟩ := Option.map_eq_some_iff.1 hat.symm
    exact ⟨copy, hcopy, hsome.symm⟩
  refine ⟨hfaithful.faithful, hcopies, ?_, ?_, ?_, ?_, ?_⟩
  · intro i j hi hj
    obtain ⟨a, ha, hcallA⟩ := hnoted i hi
    obtain ⟨b, hb, hcallB⟩ := hnoted j hj
    rw [ha, hb, getElem?_eq_getElem hi, getElem?_eq_getElem hj, Option.some_inj, Option.some_inj]
    constructor
    · rintro rfl
      exact hfaithful.vars_inj _ _ _ trivial trivial hcallA hcallB
    · intro heq
      rw [heq, hcallB] at hcallA
      exact (Option.some.inj hcallA).symm
  · rintro ⟨origin, v⟩
    constructor
    · intro hmem
      exact hnew _ (hkeys ▸ hmem)
    · rintro ⟨⟨_, u⟩, hcall, rfl, hreach⟩
      obtain ⟨i, hi, heq⟩ := getElem_of_mem hcall
      obtain ⟨copy, -, hcopy⟩ := hnoted i hi
      rw [heq] at hcopy
      exact hfaithful.mem_keys_of_reaches trivial (mem_keys_of_get? hcopy) hreach
  · rw [hkeys]
    exact hnotes.nodup
  · rw [hnotes.size, ← hkeys]
    exact congrArg (s.vars.size + ·) (length_map _)
  · rintro earlier later rfl
    change (s.importEach sources earlier).1.Keeps (s.importEach sources (earlier ++ later)).1
    rw [importEach_append]
    exact ((hstart.importEach hsources).1.importEach hsources).2.1

/-- Two tables that are members of each other, the first one of itself too, with one function that
both share. -/
def linkedTables : Store where
  vars := #[
    { name := "list", file := ⟨0⟩, kind := .table, range := default, function := some ⟨0⟩
      members := ⟨[("first", ⟨1⟩), ("self", ⟨0⟩)]⟩ },
    { name := "node", file := ⟨0⟩, kind := .table, range := default, function := some ⟨0⟩
      members := ⟨[("list", ⟨0⟩)]⟩ }]
  functions := #[default]

theorem importEach_faithful_linkedTables :
    linkedTables.OwnsMembers ∧
      let calls : List (FileId × VariableId) := [(⟨1⟩, ⟨0⟩), (⟨2⟩, ⟨0⟩), (⟨1⟩, ⟨0⟩)]
      let after := (importEach {} (fun _ => linkedTables) calls).1
      let copies := (importEach {} (fun _ => linkedTables) calls).2
      after.Faithful (fun _ => linkedTables) [] ∧ copies[2]? = copies[0]? ∧
      copies[1]? ≠ copies[0]? ∧
        (⟨2⟩, ⟨1⟩) ∈ after.importedVariables.keys := by
  have howns : linkedTables.OwnsMembers := by
    have hall : ∀ i < 2, ∀ m ∈ (linkedTables.variableAt ⟨i⟩).members.values, m.index <
      2 := by decide
    exact fun v hv m hm => hall v.index hv m hm
  refine ⟨howns, ?_⟩
  obtain ⟨hfaithful, -, hsame, hkeys, -⟩ :=
    importEach_faithful (fun _ => linkedTables) (fun _ => howns) {} rfl rfl
    [(⟨1⟩, ⟨0⟩), (⟨2⟩, ⟨0⟩), (⟨1⟩, ⟨0⟩)] (by simp [Owns, HoldsIds.owned, linkedTables])
  refine ⟨hfaithful, (hsame 2 0 (by decide) (by decide)).2 rfl, ?_, ?_⟩
  · rw [ne_eq, hsame 1 0 (by decide) (by decide)]
    decide
  · refine (hkeys _).2 ⟨(⟨2⟩, ⟨0⟩), by simp, rfl, .single ?_⟩
    exact mem_cons_self

end LuaAnalysis.Store
