import LuaAnalysis.Proofs.Project.Sound
import LuaAnalysis.Proofs.Symbol.DeepCopy

/-!
# The shape of a loaded value

The value of a load is either shared with the loaded file, when both are in one store, or a copy of
it. What can be read off the two along member names is the same (`sameShape_load`), also where the
members lead in a circle: the copies of a file are a bisimulation between the two stores. For this
the store must have copied nothing from the file before, so that all its copies of the file are
faithful.
-/

namespace LuaAnalysis

open List

/-- What two variables have in common if one of them stands for the other: all that a reader of a
member sees. -/
structure Variable.Alike (v v' : Variable) : Prop where
  name : v'.name = v.name
  kind : v'.kind = v.kind
  file : v'.file = v.file
  range : v'.range = v.range
  module : v'.flags.module = v.flags.module
  function : v'.function.isSome = v.function.isSome
  keys : v'.members.keys = v.members.keys

variable {R : VariableId → VariableId → Prop}
variable {o o' : Option VariableId} {es : List (String × VariableId)}
variable {v : VariableId}

namespace Store

/-! ## Shapes -/

/-- Both are missing, or the same members exist along every path of names from them, and these are
alike. -/
def SameShape (s s' : Store) (o o' : Option VariableId) : Prop :=
  ∀ path, Option.Rel (fun v v' => (s.variableAt v).Alike (s'.variableAt v'))
    (s.memberAlong? o path) (s'.memberAlong? o' path)

variable {s s' t source : Store} {origin : FileId} {a : FileAnalysis} {load : LoadKind}
  {x : Variable}

theorem memberAlong?_none {path : List String} : s.memberAlong? none path = none := by
  induction path with
  | nil => rfl
  | cons name path ih => exact ih

theorem sameShape_none : SameShape s s' none none := by
  intro path
  rw [memberAlong?_none, memberAlong?_none]
  exact .none

theorem SameShape.of_members {v' : VariableId} (halike : (s.variableAt v).Alike (s'.variableAt v'))
    (hmembers : ∀ name, SameShape s s' (s.memberOf? v name) (s'.memberOf? v' name)) :
    SameShape s s' (some v) (some v')
  | [] => .some halike
  | name :: path => hmembers name path

/-- The relation leads from variables of `s` to variables of `s'` that are alike, and from members
to members. -/
structure Bisimulation (s s' : Store) (R : VariableId → VariableId → Prop) : Prop where
  alike : ∀ v v', R v v' → (s.variableAt v).Alike (s'.variableAt v')
  members : ∀ v v', R v v' → ∀ name, Option.Rel R (s.memberOf? v name) (s'.memberOf? v' name)

theorem Bisimulation.sameShape (h : Bisimulation s s' R) (hrel : Option.Rel R o o') :
    SameShape s s' o o' := by
  intro path
  induction path generalizing o o' with
  | nil => exact rel_imp h.alike hrel
  | cons name path ih =>
    refine ih ?_
    cases hrel with
    | none => exact .none
    | some hv => exact h.members _ _ hv name

/-! ## Copies -/

theorem rel_find? {es' : List (String × VariableId)}
    (h : List.Forall₂ (fun m m' => m'.1 = m.1 ∧ R m.2 m'.2) es es') {name : String} :
    Option.Rel R (OrderedMap.find? name es) (OrderedMap.find? name es') := by
  induction h with
  | nil => exact .none
  | @cons m m' es es' hm _ ih =>
    obtain ⟨hname, hvalue⟩ := hm
    rw [OrderedMap.find?, OrderedMap.find?, hname]
    split
    · exact .some hvalue
    · exact ih

theorem keys_eq_of_forall₂ {m m' : OrderedMap String VariableId}
    (h : List.Forall₂ (fun e e' => e'.1 = e.1 ∧ R e.2 e'.2) m.entries m'.entries) :
    m'.keys = m.keys := by
  rw [OrderedMap.keys, OrderedMap.keys, ← forall₂_eq_eq_eq, forall₂_map_left_iff,
    forall₂_map_right_iff]
  exact h.flip.imp fun _ _ he => he.1

theorem isSome_eq_of_rel {α β : Type} {R : α → β → Prop} {o : Option α} {o' : Option β}
    (h : Option.Rel R o o') : o'.isSome = o.isSome := by
  cases h with
  | none => rfl
  | some _ => rfl

theorem CopiesVariable.alike {copy : VariableId} (h : t.CopiesVariable source origin v copy)
    (hmembers : t.CopiesMembers source origin v copy) :
    (source.variableAt v).Alike (t.variableAt copy) where
  name := by rw [h.contents]
  kind := by rw [h.contents]
  file := by rw [h.contents]
  range := by rw [h.contents]
  module := by rw [h.contents]
  function := isSome_eq_of_rel h.function
  keys := keys_eq_of_forall₂
    (R := fun m m' => t.importedVariables.get? (origin, m) = some m') hmembers

section

variable (h : t.FaithfulOn (· = origin) (fun _ => source) []) (hsource : source.OwnsMembers)
include h hsource

theorem FaithfulOn.bisimulation (hs : source.Keeps s) (hs' : t.Keeps s') :
    Bisimulation s s' fun v copy => source.Owns v ∧
    t.importedVariables.get? (origin, v) = some copy where
  alike := by
    rintro v copy ⟨hv, hcopy⟩
    have hmembers := h.members origin v copy rfl hcopy not_mem_nil
    rw [hs.variableAt_eq hv, hs'.variableAt_eq (h.vars origin v copy rfl hcopy).owned]
    exact (h.vars origin v copy rfl hcopy).alike hmembers
  members := by
    rintro v copy ⟨hv, hcopy⟩ name
    have hmembers := h.members origin v copy rfl hcopy not_mem_nil
    have howned : ∀ e ∈ (source.variableAt v).members.entries, source.Owns e.2 :=
      fun e he => hsource v hv e.2 (mem_map_of_mem he)
    rw [memberOf?, memberOf?, hs.variableAt_eq hv,
      hs'.variableAt_eq (h.vars origin v copy rfl hcopy).owned]
    exact rel_find?
      (((forall₂_and_left _ _).2 ⟨howned, hmembers⟩).imp fun _ _ he => ⟨he.2.1, he.1, he.2.2⟩)

theorem FaithfulOn.importAll (hes : ∀ e ∈ es, source.Owns e.2) :
    (t.importAll source origin es).1.FaithfulOn (· = origin) (fun _ => source) [] ∧
      t.Keeps (t.importAll source origin es).1 ∧
      List.Forall₂ (fun e e' => e'.1 = e.1 ∧ source.Owns e.2 ∧
          (t.importAll source origin es).1.importedVariables.get? (origin, e.2) = some e'.2)
        es (t.importAll source origin es).2 := by
  induction es generalizing t with
  | nil => exact ⟨h, .refl, .nil⟩
  | cons e es ih =>
    rw [forall_mem_cons] at hes
    obtain ⟨hkeep, -, hfaithful⟩ := t.keeps_importVariable (fun _ => source) origin e.2
    obtain ⟨hrest, hkeepRest, hcopies⟩ := ih (hfaithful hsource rfl h) hes.2
    have hcopy := t.get?_importVariable source origin hes.1
    exact ⟨hrest, hkeep.trans hkeepRest,
      .cons ⟨rfl, hes.1, hkeepRest.variableCopies _ _ hcopy⟩ hcopies⟩

end

/-! ## Values of loads -/

def HasNothingOf (s : Store) (origin : FileId) : Prop :=
  (∀ key ∈ s.importedVariables.keys, key.1 ≠ origin) ∧
    ∀ key ∈ s.importedFunctions.keys, key.1 ≠ origin

instance (s : Store) (origin : FileId) : Decidable (s.HasNothingOf origin) :=
  inferInstanceAs (Decidable (_ ∧ _))

theorem keeps_addVariable (s : Store) (x : Variable) : s.Keeps (s.addVariable x).1 :=
  ⟨.refl, .push _ _ _, .refl, .refl, fun _ _ h => h, fun _ _ h => h⟩

theorem variableAt_addVariable_new : (s.addVariable x).1.variableAt (s.addVariable x).2 = x :=
  s.variableAt_addVariable.trans (if_pos rfl)

theorem FaithfulOn.sameShape_module (h : t.FaithfulOn (· = origin) (fun _ => source) [])
    (hsource : source.OwnsMembers) (r : FileResult) (kind : ValueKind)
    {members copies : OrderedMap String VariableId} (hmembers : List.Forall₂ (fun e e' =>
      e'.1 = e.1 ∧ source.Owns e.2 ∧ t.importedVariables.get? (origin, e.2) = some e'.2)
      members.entries copies.entries) :
    SameShape (source.addVariable (r.moduleVariable kind members)).1
      (t.addVariable (r.moduleVariable kind copies)).1
      (some (source.addVariable (r.moduleVariable kind members)).2)
      (some (t.addVariable (r.moduleVariable kind copies)).2) := by
  have hbisim := h.bisimulation hsource (source.keeps_addVariable (r.moduleVariable kind members))
    (t.keeps_addVariable (r.moduleVariable kind copies))
  refine .of_members ?_ fun name => hbisim.sameShape ?_
  · rw [variableAt_addVariable_new, variableAt_addVariable_new]
    exact ⟨rfl, rfl, rfl, rfl, rfl, rfl, keys_eq_of_forall₂
      (R := fun v copy => source.Owns v ∧
        t.importedVariables.get? (origin, v) = some copy) hmembers⟩
  · rw [memberOf?, memberOf?, variableAt_addVariable_new, variableAt_addVariable_new]
    exact rel_find? hmembers

theorem sameShape_importModule (hstore : a.store.Sound) (hresult : a.store.Owns a.result)
    (hs : s.HasNothingOf a.result.file) :
    SameShape (a.store.bindModule load a.result).1 (s.importModule load a).1
      (a.store.bindModule load a.result).2 (s.importModule load a).2 := by
  have hstart : s.FaithfulOn (· = a.result.file) (fun _ => a.store) [] := .of_nothing hs.1 hs.2
  have howns : a.store.OwnsMembers := fun v _ => (hstore.variable_owned v).members
  unfold bindModule importModule
  split
  · exact sameShape_none
  · next v hshape =>
    have hv := owns_of_returned hresult hshape
    have hfaithful : (s.importVariable a.store a.result.file v).1.FaithfulOn (· = a.result.file)
      (fun _ => a.store) [] :=
      (s.keeps_importVariable _ a.result.file v).2.2 howns rfl hstart
    exact (hfaithful.bisimulation howns .refl .refl).sameShape
      (.some ⟨hv, s.get?_importVariable a.store a.result.file hv⟩)
  · exact hstart.sameShape_module howns a.result .function .nil
  · have hglobals : ∀ e ∈ a.result.globals.entries, a.store.Owns e.2 :=
      fun e he => hresult.globals.owns e.2 (mem_map_of_mem he)
    obtain ⟨hfaithful, -, hcopies⟩ := hstart.importAll howns hglobals
    exact hfaithful.sameShape_module howns a.result .table hcopies

end Store

namespace Project

open Store

/-- A load has one shape. Whether a file is loaded within its store or into a store that has copied
nothing from the file before, there is a value in both cases or in neither one; and along every path
of member names from it, the empty path included, the same members exist, with equal names, kinds,
files and ranges, equal member names, both marked as modules or neither one, and both with a
function or neither one. -/
theorem sameShape_load (p : Project) (load : LoadKind) (a : FileAnalysis)
    (ha : a ∈ p.computeFirstPass.analyses) (s : Store) (hs : s.HasNothingOf a.result.file) :
    SameShape (a.store.bindModule load a.result).1 (s.importModule load a).1
      (a.store.bindModule load a.result).2 (s.importModule load a).2 := by
  obtain ⟨hstore, hresult⟩ := p.sound_computeFirstPass a ha
  exact sameShape_importModule hstore hresult hs

/-- A file that returns a table with two members, which share a function as a member. -/
def sharedMember : Project :=
  ((ofConfig {}).addFile "a.lua"
    "local part = { f = function() end }\nreturn { a = part, b = part }\n").1

/-- It is loaded into a store that holds a copy from another file. -/
theorem sameShape_load_sharedMember :
    let s : Store := { vars := #[default], importedVariables := ⟨[((⟨1⟩, ⟨0⟩), ⟨0⟩)]⟩ }
    ∃ a ∈ sharedMember.computeFirstPass.analyses, s.HasNothingOf a.result.file ∧
      (∀ name ∈ ["a", "b"], ∃ v ∈ (a.store.bindModule .require a.result).1.memberAlong?
        (a.store.bindModule .require a.result).2 [name, "f"],
        (a.store.variableAt v).function.isSome) ∧
      SameShape (a.store.bindModule .require a.result).1 (s.importModule .require a).1
        (a.store.bindModule .require a.result).2 (s.importModule .require a).2 := by
  intro s
  have hfound : ∃ a ∈ sharedMember.computeFirstPass.analyses, s.HasNothingOf a.result.file ∧
      ∀ name ∈ ["a", "b"], ∃ v ∈ (a.store.bindModule .require a.result).1.memberAlong?
        (a.store.bindModule .require a.result).2 [name, "f"],
        (a.store.variableAt v).function.isSome := by
    decide +kernel
  obtain ⟨a, ha, hs, hmember⟩ := hfound
  exact ⟨a, ha, hs, hmember, sameShape_load sharedMember .require a ha s hs⟩

end Project

end LuaAnalysis
