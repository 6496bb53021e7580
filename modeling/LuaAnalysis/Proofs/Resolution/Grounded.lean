import LuaAnalysis.Proofs.Walk.Trace

/-!
# Globals are written somewhere

The tables of a walk lead from a name to the variable of a global. `Grounded` says that such a
variable belongs to no scope and was made where some file writes the name free. Copies keep this, so
it holds of what other files define, too, and what a name is looked up to be is a visible local or
grounded in this way (`answers_lookup`).
-/

namespace LuaAnalysis

variable {u : Mention} {found : FileAnalysis × VariableId} {id : VariableId} {s : Store}

namespace FileIndex

/-- A variable that no scope declares, made where a file writes the name. -/
structure IsGlobal (x : FileIndex) (s : Store) (name : String) (id : VariableId) : Prop where
  lt : id.index < s.vars.size
  scope : (s.variableAt id).scope = none
  assigned : x.Assigns name (s.variableAt id).key

def AreGlobals (x : FileIndex) (s : Store) (m : OrderedMap String VariableId) : Prop :=
  ∀ name id, m.get? name = some id → x.IsGlobal s name id

variable {x : FileIndex} {s s' : Store} {name : String} {id : VariableId}
  {m : OrderedMap String VariableId}

theorem IsGlobal.of_grows (h : x.IsGlobal s name id) (hv : Grows Variable.core s.vars s'.vars) :
    x.IsGlobal s' name id := by
  have hcore : (s'.variableAt id).core = (s.variableAt id).core := hv.core_eq id.index h.lt
  refine ⟨Nat.lt_of_lt_of_le h.lt hv.size_le, (part_eq hcore Variable.scope).trans h.scope, ?_⟩
  rw [Variable.key_of_core hcore]
  exact h.assigned

theorem IsGlobal.importVariable {source : Store} {origin : FileId} (h : x.IsGlobal source name id)
    (hm : s.Mirrors source origin) :
    x.IsGlobal (s.importVariable source origin id).1 name
      (s.importVariable source origin id).2 := by
  obtain ⟨hlt, hcore⟩ := hm.importVariable h.lt
  refine ⟨hlt, congrArg Variable.scope hcore, ?_⟩
  have hkey := congrArg Variable.key hcore
  change ((s.importVariable source origin id).1.variableAt
    (s.importVariable source origin id).2).key =
    (source.variableAt id).key at hkey
  rw [hkey]
  exact h.assigned

theorem isGlobal_addVariable {v : Variable} (hscope : v.scope = none) (h : x.Assigns name v.key) :
    x.IsGlobal (s.addVariable v).1 name (s.addVariable v).2 := by
  refine ⟨by simp [Store.addVariable], ?_, ?_⟩
  · rw [s.variableAt_addVariable_self, hscope]
  · rw [s.variableAt_addVariable_self]
    exact h

namespace AreGlobals

theorem empty : x.AreGlobals s {} := by
  intro name id h
  cases h

theorem of_grows (h : x.AreGlobals s m) (hv : Grows Variable.core s.vars s'.vars) :
    x.AreGlobals s' m :=
  fun name id hid => (h name id hid).of_grows hv

theorem insertIfNew (h : x.AreGlobals s m) (hid : x.IsGlobal s name id) :
    x.AreGlobals s (m.insertIfNew name id) := by
  intro n i hi
  rcases OrderedMap.of_get?_insertIfNew hi with hold | ⟨rfl, -, rfl⟩
  · exact h n i hold
  · exact hid

end AreGlobals

theorem areGlobals_enter {t : GlobalTables} {e : Event} (hg : x.AreGlobals s t.globals)
    (hr : x.AreGlobals s t.rootGlobals) (hid : x.IsGlobal s name id)
    (hkey : e.globalKey? = some name) :
    x.AreGlobals s (t.enter e id).globals ∧ x.AreGlobals s (t.enter e id).rootGlobals := by
  unfold GlobalTables.enter
  split
  · cases hkey
    exact ⟨hg.insertIfNew hid, hr⟩
  · cases hkey
    exact ⟨hg.insertIfNew hid, hr.insertIfNew hid⟩
  · exact ⟨hg, hr⟩

/-- What a mention is about: the local that it is bound to, or a global of its name. -/
def Stands (x : FileIndex) (s : Store) (u : Mention) (id : VariableId) : Prop :=
  match u.binding with
  | some d => id.index < s.vars.size ∧ (s.variableAt id).scope.isSome ∧ (s.variableAt id).key = d
  | none => x.IsGlobal s u.name id

theorem Stands.of_grows (h : x.Stands s u id) (hv : Grows Variable.core s.vars s'.vars) :
    x.Stands s' u id := by
  unfold Stands at h ⊢
  split at h
  · obtain ⟨hlt, hscope, hkey⟩ := h
    have hcore : (s'.variableAt id).core = (s.variableAt id).core := hv.core_eq id.index hlt
    rw [part_eq hcore Variable.scope, Variable.key_of_core hcore]
    exact ⟨Nat.lt_of_lt_of_le hlt hv.size_le, hscope, hkey⟩
  · exact IsGlobal.of_grows h hv

theorem Stands.lt (h : x.Stands s u id) : id.index < s.vars.size := by
  unfold Stands at h
  split at h
  · exact h.1
  · exact IsGlobal.lt h

theorem stands_of_free (hu : u.binding = none) : x.Stands s u id ↔ x.IsGlobal s u.name id := by
  unfold Stands
  rw [hu]

end FileIndex

namespace Store

theorem WellFormed.lookupLocal (hs : s.WellFormed) {scope : ScopeId}
    (hlt : scope.index < s.scopes.size) {name : String} (h : s.lookupLocal? scope name = some id) :
    id.index < s.vars.size ∧ (s.variableAt id).scope.isSome := by
  obtain ⟨a, ha, hid⟩ := List.exists_of_findSome?_eq_some h
  obtain ⟨vs, hvs, hlast⟩ := Option.bind_eq_some_iff.1 hid
  have hmem : id ∈ s.localsOf a :=
    List.mem_flatten.2 ⟨vs, OrderedMap.mem_values_of_get? hvs, List.mem_of_getLast? hlast⟩
  have halt := Nat.lt_of_le_of_lt (s.ancestors_le a ha) hlt
  exact ⟨hs.locals_lt a halt id hmem, hs.locals_scope a halt id hmem⟩

end Store

/-- Where the variable that is provided was declared. -/
def Provider.key (w : Walk) : Provider → DeclKey
  | .table id => (w.store.variableAt id).key
  | .file found => (found.1.store.variableAt found.2).key

namespace WalkM

/-! ## Steps that announce nothing -/

/-- No name has been announced, and no table of names or files has changed. -/
structure Mute (env : WalkEnv) (w w' : Walk) : Prop where
  vars : Grows Variable.core w.store.vars w'.store.vars
  copies : env.firstPass.MirroredIn w.store → env.firstPass.MirroredIn w'.store
  active : w'.phase.active = w.phase.active
  tables : w'.tables = w.tables
  file : w'.frame.file = w.frame.file
  globals : w'.frame.globals = w.frame.globals
  rootGlobals : w'.frame.rootGlobals = w.frame.rootGlobals
  occurrences : w'.occurrences = w.occurrences

namespace Mute

variable {env : WalkEnv} {w w' w'' : Walk}

theorem of_quiet {free : ScopeId → Prop} (h : Quiet env free w w')
    (ho : w'.occurrences = w.occurrences) : Mute env w w' where
  vars := h.store.vars
  copies := h.copies
  active := h.active
  tables := by
    have heq : ∀ t t' : ProjectTables,
        t'.globals = t.globals → t'.rootGlobals = t.rootGlobals → t'.files = t.files → t' = t := by
      rintro ⟨⟩ ⟨⟩ ⟨⟩ ⟨⟩ ⟨⟩
      rfl
    exact heq _ _ (congrArg NameTables.sharedGlobals h.names)
      (congrArg NameTables.sharedRootGlobals h.names) h.files
  file := congrArg Course.file h.course
  globals := h.globals
  rootGlobals := h.rootGlobals
  occurrences := ho

theorem of_soundless (h : Soundless env w w') : Mute env w w' :=
  of_quiet (.of_soundless h : Quiet env (fun _ => False) w w') h.occurrences

theorem of_frame {f : Frame} (hf : f.file = w.frame.file) (hg : f.globals = w.frame.globals)
    (hr : f.rootGlobals = w.frame.rootGlobals) : Mute env w { w with frame := f } :=
  ⟨.refl, id, rfl, rfl, hf, hg, hr, rfl⟩

end Mute

/-! ## Tables of globals -/

/-- The tables lead to globals, and copies are like the originals. -/
structure Grounded (env : WalkEnv) (w : Walk) : Prop where
  first : ∀ a ∈ env.firstPass.analyses,
    env.files.AreGlobals a.store a.result.globals ∧
    env.files.AreGlobals a.store a.result.rootGlobals
  copies : env.firstPass.MirroredIn w.store
  globals : env.files.AreGlobals w.store w.frame.globals
  rootGlobals : env.files.AreGlobals w.store w.frame.rootGlobals
  sharedGlobals : env.files.AreGlobals w.store w.tables.globals
  sharedRootGlobals : env.files.AreGlobals w.store w.tables.rootGlobals
  /-- Only a walk from entry files shares tables. -/
  unshared : env.pass ≠ .project → w.tables.rootGlobals = {}

variable {env : WalkEnv} {w w' : Walk} {name : String}

theorem Grounded.of_eq (h : Grounded env w) (hstore : w'.store = w.store)
    (hframe : w'.frame = w.frame) (hglobals : w'.tables.globals = w.tables.globals)
    (hroots : w'.tables.rootGlobals = w.tables.rootGlobals) :
    Grounded env w' where
  first := h.first
  copies := hstore ▸ h.copies
  globals := by
    rw [hstore, hframe]
    exact h.globals
  rootGlobals := by
    rw [hstore, hframe]
    exact h.rootGlobals
  sharedGlobals := by
    rw [hstore, hglobals]
    exact h.sharedGlobals
  sharedRootGlobals := by
    rw [hstore, hroots]
    exact h.sharedRootGlobals
  unshared hp := hroots.trans (h.unshared hp)

theorem Grounded.mute (h : Grounded env w) (hm : Mute env w w') : Grounded env w' where
  first := h.first
  copies := hm.copies h.copies
  globals := hm.globals ▸ h.globals.of_grows hm.vars
  rootGlobals := hm.rootGlobals ▸ h.rootGlobals.of_grows hm.vars
  sharedGlobals := hm.tables ▸ h.sharedGlobals.of_grows hm.vars
  sharedRootGlobals := hm.tables ▸ h.sharedRootGlobals.of_grows hm.vars
  unshared hp := hm.tables ▸ h.unshared hp

theorem grounded_entered {e : Event} (h : Grounded env w) (hid : env.files.IsGlobal w.store name id)
    (hkey : e.globalKey? = some name) (isNew : Bool) : Grounded env (entered env e id isNew w) := by
  obtain ⟨hglobals, hroots⟩ :=
    FileIndex.areGlobals_enter (t := w.names.own) h.globals h.rootGlobals hid hkey
  rcases tables_entered env e id isNew w with ht | ⟨hp, ht⟩
  · exact ⟨h.first, h.copies, hglobals, hroots, ht ▸ h.sharedGlobals, ht ▸ h.sharedRootGlobals,
      ht ▸ h.unshared⟩
  · obtain ⟨hshared, hsharedRoots⟩ :=
      FileIndex.areGlobals_enter (t := w.names.shared) h.sharedGlobals h.sharedRootGlobals hid hkey
    exact ⟨h.first, h.copies, hglobals, hroots, ht ▸ hshared, ht ▸ hsharedRoots,
      fun hne => absurd hp hne⟩

/-! ## Looking up -/

section

variable (h : Grounded env w)
include h

theorem Grounded.defines (hf : env.firstPass.Defines name found) :
    env.files.IsGlobal found.1.store name found.2 := by
  obtain ⟨hmem, hglobal | hroot⟩ := hf
  · exact (h.first found.1 hmem).1 name found.2 hglobal
  · exact (h.first found.1 hmem).2 name found.2 hroot

theorem Grounded.importFrom (hf : env.firstPass.Defines name found) :
    env.files.IsGlobal (importFrom found w).2.store name (importFrom found w).1 :=
  (h.defines hf).importVariable (h.copies.mirrors found.1 hf.mem)

theorem Grounded.fetch {p : Provider} (hp : Provides env w name p) :
    env.files.IsGlobal (fetch p w).2.store name (fetch p w).1 ∧
      ((fetch p w).2.store.variableAt (fetch p w).1).key = p.key w := by
  cases hp with
  | own hid => exact ⟨hid.elim (h.globals name _) (h.rootGlobals name _), rfl⟩
  | shared hid => exact ⟨hid.elim (h.sharedGlobals name _) (h.sharedRootGlobals name _), rfl⟩
  | @file found hf =>
    have hkey := congrArg Variable.key
      ((h.copies.mirrors found.1 hf.mem).importVariable (h.defines hf).lt).2
    exact ⟨h.importFrom hf, hkey⟩

end

def Lookup.Answers (x : FileIndex) (s : Store) (u : Mention) : Lookup → Prop
  | .found id | .tooEarly id _ => x.Stands s u id
  | .builtin | .unresolved => u.binding = none

/-- The walk is in a scope of a well-formed store. -/
structure Placed (w : Walk) : Prop where
  wellFormed : w.store.WellFormed
  scope_lt : w.frame.scope.index < w.store.scopes.size

theorem Placed.of_moves (hw : Placed w) (hm : Moves env w w') : Placed w' :=
  ⟨hm.quiet.store.wellFormed hw.wellFormed, hm.scope_lt⟩

theorem Placed.of_place (hw : Placed w) (hs : Store.Extends (fun _ => False) w.store w'.store)
    (hp : w'.frame.place = w.frame.place) : Placed w' := by
  refine ⟨hs.wellFormed hw.wellFormed, ?_⟩
  rw [part_eq hp Frame.scope]
  exact hs.scope_lt hw.scope_lt

theorem Placed.stands_local (hw : Placed w)
    (hu : u.binding = w.store.bindingAt? w.frame.scope u.name)
    (hl : w.store.lookupLocal? w.frame.scope u.name = some id) : env.files.Stands w.store u id := by
  obtain ⟨hlt, hscope⟩ := hw.wellFormed.lookupLocal hw.scope_lt hl
  rw [Store.bindingAt?, hl, Option.map_some] at hu
  unfold FileIndex.Stands
  rw [hu]
  exact ⟨hlt, hscope, rfl⟩

theorem bindingAt?_eq_none (hl : w.store.lookupLocal? w.frame.scope name = none) :
    w.store.bindingAt? w.frame.scope name = none := by
  rw [Store.bindingAt?, hl, Option.map_none]

theorem answers_lookup (hw : Placed w) (h : Grounded env w)
    (hu : u.binding = w.store.bindingAt? w.frame.scope u.name) {out : Lookup × Walk}
    (hlooks : Looks env w u.name out) : Lookup.Answers env.files out.2.store u out.1 := by
  cases hlooks with
  | bound hl => exact hw.stands_local hu hl
  | seen hl hseen =>
    exact (FileIndex.stands_of_free (hu.trans (bindingAt?_eq_none hl))).2
      (h.fetch (provides_seen? hseen)).1
  | unseen hl _ hm =>
    have hfree := hu.trans (bindingAt?_eq_none hl)
    cases hm with
    | builtin | lost => exact hfree
    | waits _ _ hf hres =>
      have hstands :=
        (FileIndex.stands_of_free hfree).2 (h.importFrom (defines_unfinishedDefinition? hf))
      subst hres
      dsimp only
      split
      · exact hstands
      · exact hstands

end WalkM

end LuaAnalysis
