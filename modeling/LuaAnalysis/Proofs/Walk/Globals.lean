import LuaAnalysis.Proofs.Walk.Entry

/-!
# The variables of a global

A global can be defined under its name and as a member of `_G`, and each of the two has a table of
its own. Whoever defines a member of `_G` looks for it among the members only, so that a name which
was a plain global before gets a second variable. A third one it never gets: in a file that is
walked alone the two tables are `Paired`, and in a walk from entry files the shared tables are, and
the tables of every file follow them (`Coherent`). Both are kept by every step, and hence by every
run.
-/

namespace LuaAnalysis

open OrderedMap

def FileResult.globalTables (r : FileResult) : GlobalTables :=
  ⟨r.globals, r.rootGlobals⟩

namespace GlobalTables

variable {t t' t'' shared : GlobalTables} {s s' : Store} {e : Event} {id : VariableId}

/-- The first entry of every name stays. -/
structure Keeps (t t' : GlobalTables) : Prop where
  globals : ∀ name v, t.globals.get? name = some v → t'.globals.get? name = some v
  rootGlobals : ∀ name v, t.rootGlobals.get? name = some v → t'.rootGlobals.get? name = some v

/-- A member of `_G` is marked and is a global, and a global that is marked is the member of its
name. -/
structure Paired (s : Store) (t : GlobalTables) : Prop where
  root : ∀ name v, t.rootGlobals.get? name = some v → s.Holds v true ∧
    ∃ u, t.globals.get? name = some u
  plain : ∀ name u, t.globals.get? name = some u →
    ∃ root, s.Holds u root ∧ (root = true → t.rootGlobals.get? name = some u)

/-- The tables of a file lead to what the shared tables lead to: a member of `_G` to the shared
member, and a global to the shared global or to the shared member. -/
structure Follows (t shared : GlobalTables) : Prop where
  root : ∀ name v, t.rootGlobals.get? name = some v →
    shared.rootGlobals.get? name = some v ∧ ∃ u, t.globals.get? name = some u
  plain : ∀ name u, t.globals.get? name = some u →
    shared.globals.get? name = some u ∨ shared.rootGlobals.get? name = some u

/-! ## Keeping entries -/

theorem Keeps.refl : t.Keeps t :=
  ⟨fun _ _ h => h, fun _ _ h => h⟩

theorem Keeps.trans (h : t.Keeps t') (h' : t'.Keeps t'') : t.Keeps t'' where
  globals name v hv := h'.globals name v (h.globals name v hv)
  rootGlobals name v hv := h'.rootGlobals name v (h.rootGlobals name v hv)

theorem keeps_enter (t : GlobalTables) (e : Event) (id : VariableId) : t.Keeps (t.enter e id) := by
  cases e with
  | read | load => exact .refl
  | write name range binding =>
    cases binding with
    | some d => exact .refl
    | none => exact ⟨fun _ _ h => get?_insertIfNew_of_get? h, fun _ _ h => h⟩
  | writeRoot name range =>
    exact ⟨fun _ _ h => get?_insertIfNew_of_get? h,
      fun _ _ h => get?_insertIfNew_of_get? h⟩

theorem enter_of_globalKey?_eq_none (h : e.globalKey? = none) : t.enter e id = t := by
  cases e with
  | read | load => rfl
  | write name range binding =>
    cases binding with
    | some d => rfl
    | none => cases h
  | writeRoot name range => cases h

theorem lookup?_enter {name : String} (hkey : e.globalKey? = some name) (h : t.lookup? e = none) :
    (t.enter e id).lookup? e = some id := by
  cases e with
  | read | load => cases hkey
  | write name range binding =>
    cases binding with
    | some d => cases hkey
    | none => exact get?_insertIfNew_self h
  | writeRoot name range => exact get?_insertIfNew_self h

/-! ## Pairs -/

namespace Paired

theorem empty : Paired s ⟨{}, {}⟩ :=
  ⟨nofun, nofun⟩

theorem of_grows (h : Paired s t) (hv : Grows Variable.core s.vars s'.vars) : Paired s' t := by
  refine ⟨fun name v hv' => ?_, fun name u hu => ?_⟩
  · obtain ⟨hholds, hglobal⟩ := h.root name v hv'
    exact ⟨hholds.of_grows hv, hglobal⟩
  · obtain ⟨root, hholds, hroot⟩ := h.plain name u hu
    exact ⟨root, hholds.of_grows hv, hroot⟩

theorem enter_known (h : Paired s t) (hid : t.lookup? e = some id) : t.enter e id = t := by
  cases e with
  | read | load => rfl
  | write name range binding =>
    cases binding with
    | some d => rfl
    | none => rw [enter, insertIfNew_of_get? hid]
  | writeRoot name range =>
    obtain ⟨-, u, hu⟩ := h.root name id hid
    rw [enter, insertIfNew_of_get? hid, insertIfNew_of_get? hu]

theorem enter_new (h : Paired s t) (hnew : t.lookup? e = none) (hid : s.Holds id e.isRoot) :
    Paired s (t.enter e id) := by
  have hkeeps := t.keeps_enter e id
  cases e with
  | read | load => exact h
  | write name range binding =>
    cases binding with
    | some d => exact h
    | none =>
      constructor
      · intro x v hv
        obtain ⟨hholds, u, hu⟩ := h.root x v hv
        exact ⟨hholds, u, hkeeps.globals x u hu⟩
      · intro x u hu
        rcases of_get?_insertIfNew hu with hold | ⟨rfl, -, rfl⟩
        · exact h.plain x u hold
        · exact ⟨false, hid, fun hroot => nomatch hroot⟩
  | writeRoot name range =>
    constructor
    · intro x v hv
      rcases of_get?_insertIfNew hv with hold | ⟨rfl, -, rfl⟩
      · obtain ⟨hholds, u, hu⟩ := h.root x v hold
        exact ⟨hholds, u, hkeeps.globals x u hu⟩
      · refine ⟨hid, (t.globals.get? name).getD id, ?_⟩
        rw [enter, get?_insertIfNew, if_pos rfl]
    · intro x u hu
      rcases of_get?_insertIfNew hu with hold | ⟨rfl, -, rfl⟩
      · obtain ⟨root, hholds, hroot⟩ := h.plain x u hold
        exact ⟨root, hholds, fun heq => hkeeps.rootGlobals x u (hroot heq)⟩
      · exact ⟨true, hid, fun _ => get?_insertIfNew_self hnew⟩

end Paired

/-! ## Tables of files -/

namespace Follows

theorem empty : Follows ⟨{}, {}⟩ shared :=
  ⟨nofun, nofun⟩

theorem of_keeps {shared' : GlobalTables} (h : Follows t shared) (hk : shared.Keeps shared') :
    Follows t shared' := by
  refine ⟨fun name v hv => ?_, fun name u hu => ?_⟩
  · obtain ⟨hroot, hglobal⟩ := h.root name v hv
    exact ⟨hk.rootGlobals name v hroot, hglobal⟩
  · exact (h.plain name u hu).imp (hk.globals name u) (hk.rootGlobals name u)

theorem enter (h : Follows t shared) (hid : shared.lookup? e = some id) :
    Follows (t.enter e id) shared := by
  have hkeeps := t.keeps_enter e id
  cases e with
  | read | load => exact h
  | write name range binding =>
    cases binding with
    | some d => exact h
    | none =>
      constructor
      · intro x v hv
        obtain ⟨hroot, u, hu⟩ := h.root x v hv
        exact ⟨hroot, u, hkeeps.globals x u hu⟩
      · intro x u hu
        rcases of_get?_insertIfNew hu with hold | ⟨rfl, -, rfl⟩
        · exact h.plain x u hold
        · exact .inl hid
  | writeRoot name range =>
    constructor
    · intro x v hv
      rcases of_get?_insertIfNew hv with hold | ⟨rfl, -, rfl⟩
      · obtain ⟨hroot, u, hu⟩ := h.root x v hold
        exact ⟨hroot, u, hkeeps.globals x u hu⟩
      · refine ⟨hid, (t.globals.get? name).getD id, ?_⟩
        rw [enter, get?_insertIfNew, if_pos rfl]
    · intro x u hu
      rcases of_get?_insertIfNew hu with hold | ⟨rfl, -, rfl⟩
      · exact h.plain x u hold
      · exact .inr hid

theorem enter_own (h : Follows t shared) (hid : t.lookup? e = some id) :
    Follows (t.enter e id) shared := by
  cases e with
  | read | load => exact h
  | write name range binding =>
    cases binding with
    | some d => exact h
    | none =>
      rw [GlobalTables.enter, insertIfNew_of_get? hid]
      exact h
  | writeRoot name range => exact h.enter (h.root name id hid).1

end Follows

end GlobalTables

namespace WalkM

variable {env : WalkEnv} {f : FileId} {es : List Event} {e : Event} {w w' : Walk} {r : FileResult}

theorem LoadStep.own {l : LoadCall} (h : LoadStep env l w w') : w'.names.own = w.names.own := by
  simp only [NameTables.own, Walk.names, h.globals, h.rootGlobals]

/-! ## Files that are walked alone -/

/-- The tables of the current file are paired. -/
def Pairs (w : Walk) : Prop :=
  w.names.own.Paired w.store

theorem Pairs.of_own (h : Pairs w) (hv : Grows Variable.core w.store.vars w'.store.vars)
    (hown : w'.names.own = w.names.own) : Pairs w' := by
  unfold Pairs
  rw [hown]
  exact GlobalTables.Paired.of_grows h hv

theorem Pairs.step (hp : env.pass = .fileLocal) (h : Pairs w) (hs : Step env e w w') :
    Pairs w' := by
  have hproject : env.pass ≠ .project := by rw [hp]; decide
  have hgrown : w.names.own.Paired w'.store := GlobalTables.Paired.of_grows h hs.store.vars
  have hlookup : w.names.target? env.pass e = w.names.own.lookup? e := by
    rw [NameTables.target?, if_neg hproject]
    cases w.names.own.lookup? e <;> rfl
  unfold Pairs
  cases hs.enters (.inl hp) with
  | nothing key own shared => rwa [own]
  | known found own shared =>
    rw [hlookup] at found
    rwa [own, hgrown.enter_known found]
  | new unknown holds own shared =>
    rw [hlookup] at unknown
    rw [own]
    exact hgrown.enter_new unknown holds

mutual

theorem Run.pairs {f : FileId} {es : List Event} {ms : List Mention} {w w' : Walk}
    (hp : env.pass = .fileLocal) (h : Run env f es ms w w')
    (hw : Pairs w) : Pairs w' := by
  match h with
  | .done _ _ => exact hw
  | .quiet hq _ rest => exact rest.pairs hp (hw.of_own hq.quiet.store.vars (by rw [hq.quiet.names]))
  | .step hs _ rest => exact rest.pairs hp (hw.step hp hs)
  | .stay hs rest => exact rest.pairs hp (hw.of_own hs.step.store.vars hs.step.own)
  | .away _ hnew _ _ _ => exact absurd (hp.symm.trans hnew.pass) (by decide)

theorem Walks.pairs {f : FileId} {r : FileResult} {w w' : Walk} (hp : env.pass = .fileLocal)
    (h : Walks env f w r w') : r.globalTables.Paired w'.store := by
  match h with
  | .broken _ _ => exact .empty
  | .read _ run => exact run.pairs hp GlobalTables.Paired.empty

end

/-! ## Walks from entry files -/

/-- The shared tables are paired, and the tables of the current file and of every file that has been
walked follow them. -/
structure Coherent (w : Walk) : Prop where
  shared : w.names.shared.Paired w.store
  own : w.names.own.Follows w.names.shared
  files : ∀ r ∈ w.tables.files.values, r.globalTables.Follows w.names.shared

namespace Coherent

theorem of_keeps (h : Coherent w) (hshared : w'.names.shared.Paired w'.store)
    (hkeeps : w.names.shared.Keeps w'.names.shared) (hown : w'.names.own.Follows w'.names.shared)
    (hfiles : w'.tables.files = w.tables.files) : Coherent w' := by
  refine ⟨hshared, hown, fun r hr => ?_⟩
  rw [hfiles] at hr
  exact (h.files r hr).of_keeps hkeeps

theorem of_tables (h : Coherent w) (hv : Grows Variable.core w.store.vars w'.store.vars)
    (hown : w'.names.own = w.names.own) (hshared : w'.names.shared = w.names.shared)
    (hfiles : w'.tables.files = w.tables.files) : Coherent w' := by
  refine h.of_keeps ?_ (hshared ▸ .refl) ?_ hfiles
  · rw [hshared]
    exact h.shared.of_grows hv
  · rw [hown, hshared]
    exact h.own

theorem step (hp : env.pass = .project) (h : Coherent w) (hs : Step env e w w') :
    Coherent w' ∧ w.names.shared.Keeps w'.names.shared := by
  have hgrown := h.shared.of_grows hs.store.vars
  have htarget : w.names.target? env.pass e =
      (w.names.own.lookup? e <|> w.names.shared.lookup? e) := by
    rw [NameTables.target?, if_pos hp]
  cases hs.enters (.inr hp) with
  | nothing key own shared => exact ⟨h.of_tables hs.store.vars own shared hs.files, shared ▸ .refl⟩
  | known found own shared =>
    have hkeeps : w.names.shared.Keeps w'.names.shared := shared ▸ .refl
    refine ⟨h.of_keeps (shared ▸ hgrown) hkeeps ?_ hs.files, hkeeps⟩
    rw [own, shared]
    rw [htarget] at found
    -- The variable is one of the file, or a shared one.
    cases hlookup : w.names.own.lookup? e with
    | some id =>
      rw [hlookup] at found
      cases found
      exact h.own.enter_own hlookup
    | none =>
      rw [hlookup] at found
      exact h.own.enter found
  | @new id unknown holds own shared =>
    rw [if_pos hp] at shared
    rw [htarget] at unknown
    have hkeeps : w.names.shared.Keeps w'.names.shared := shared ▸ w.names.shared.keeps_enter e id
    have hnone : w.names.shared.lookup? e = none := by
      cases hlookup : w.names.own.lookup? e with
      | some id => rw [hlookup] at unknown; cases unknown
      | none => rwa [hlookup] at unknown
    refine ⟨h.of_keeps (shared ▸ hgrown.enter_new hnone holds) hkeeps ?_ hs.files, hkeeps⟩
    rw [own, shared]
    cases hkey : e.globalKey? with
    | none =>
      rw [GlobalTables.enter_of_globalKey?_eq_none hkey,
        GlobalTables.enter_of_globalKey?_eq_none hkey]
      exact h.own
    | some name =>
      exact (h.own.of_keeps (w.names.shared.keeps_enter e id)).enter
        (GlobalTables.lookup?_enter hkey hnone)

theorem entering (h : Coherent w) {source : SourceFile} {chunk : Chunk} :
    Coherent (entering env f source chunk w) :=
  ⟨h.shared.of_grows (extends_entering env f source chunk w).vars, .empty, h.files⟩

theorem enlist {t : FileId} (h : Coherent w) (hlist : Enlists t r w w')
    (hown : w'.names.own.Follows w.names.shared) (hr : r.globalTables.Follows w.names.shared) :
    Coherent w' ∧ w.names.shared.Keeps w'.names.shared := by
  have hsame : w'.names.shared = w.names.shared := by
    simp only [NameTables.shared, Walk.names, hlist.globals, hlist.rootGlobals]
  refine ⟨⟨?_, hsame ▸ hown, fun r' hr' => ?_⟩, hsame ▸ .refl⟩
  · rw [hsame]
    exact h.shared.of_grows hlist.store.vars
  · rw [hsame]
    rw [hlist.files] at hr'
    rcases mem_values_insert hr' with rfl | hold
    · exact hr
    · exact h.files r' hold

end Coherent

mutual

theorem Run.coherent {f : FileId} {es : List Event} {ms : List Mention} {w w' : Walk}
    (hp : env.pass = .project) (h : Run env f es ms w w')
    (hw : Coherent w) : Coherent w' ∧ w.names.shared.Keeps w'.names.shared := by
  match h with
  | .done _ _ => exact ⟨hw, .refl⟩
  | .quiet hq _ rest =>
    have hshared := congrArg NameTables.shared hq.quiet.names
    obtain ⟨hlast, hkeeps⟩ := rest.coherent hp
      (hw.of_tables hq.quiet.store.vars (by rw [hq.quiet.names]) hshared hq.quiet.files)
    exact ⟨hlast, hshared ▸ hkeeps⟩
  | .step hs _ rest =>
    obtain ⟨hnext, hkeeps⟩ := hw.step hp hs
    obtain ⟨hlast, hkeeps'⟩ := rest.coherent hp hnext
    exact ⟨hlast, hkeeps.trans hkeeps'⟩
  | @Run.stay _ _ _ _ _ _ w₁ _ hs rest =>
    have hshared : w₁.names.shared = w.names.shared := by
      simp only [NameTables.shared, Walk.names, hs.tables]
    obtain ⟨hlast, hkeeps⟩ :=
      rest.coherent hp (hw.of_tables hs.step.store.vars hs.step.own hshared (by rw [hs.tables]))
    exact ⟨hlast, hshared ▸ hkeeps⟩
  | @Run.away _ _ _ l _ _ _ site _ _ _ _ _ _ inner hres rest =>
    have hsuspended : Coherent (suspended env l w site) :=
      hw.of_tables (extends_suspended env l w site).vars rfl rfl rfl
    obtain ⟨hinner, hinnerKeeps, hr⟩ := inner.coherent hp hsuspended
    obtain ⟨hnext, hkeeps⟩ :=
      hinner.enlist hres.toEnlists (hres.step.own ▸ hw.own.of_keeps hinnerKeeps) hr
    obtain ⟨hlast, hkeeps'⟩ := rest.coherent hp hnext
    exact ⟨hlast, (hinnerKeeps.trans hkeeps).trans hkeeps'⟩

theorem Walks.coherent {f : FileId} {r : FileResult} {w w' : Walk} (hp : env.pass = .project)
    (h : Walks env f w r w') (hw : Coherent w) : Coherent w' ∧
    w.names.shared.Keeps w'.names.shared ∧ r.globalTables.Follows w'.names.shared := by
  match h with
  | .broken _ _ => exact ⟨hw, .refl, .empty⟩
  | .read _ run =>
    -- The file starts with the shared tables as they are now; the file that waits for it comes back
    -- to them later.
    obtain ⟨hinner, hkeeps⟩ := run.coherent hp hw.entering
    exact ⟨⟨hinner.shared, hw.own.of_keeps hkeeps, hinner.files⟩, hkeeps, hinner.own⟩

end

/-! ## Entry files -/

theorem coherent_start {pass : Pass} : Coherent (.start pass) :=
  ⟨.empty, .empty, nofun⟩

theorem Coherent.visits (hp : env.pass = .project) (h : Coherent w) (hv : Visits env f w w') :
    Coherent w' := by
  cases hv with
  | again => exact h
  | first _ hwalks =>
    obtain ⟨hinner, -, hr⟩ := hwalks.coherent hp h
    exact (hinner.enlist (enlists_walked ..) hinner.own hr).1

theorem Coherent.forM_walkEntry (hp : env.pass = .project) (h : Coherent w) (hidle : Idle env w)
    (entries : List FileId) : Coherent (entries.forM (walkEntry env) w).2 := by
  induction entries generalizing w with
  | nil => exact h
  | cons f entries ih =>
    rw [forM_cons_apply]
    refine ih ?_ (hidle.walkEntry hp f)
    by_cases hf : f ∈ env.files.ids
    · exact h.visits hp (hidle.visits hp hf)
    · rw [walkEntry_of_not_mem hf]
      exact h

end WalkM

end LuaAnalysis
