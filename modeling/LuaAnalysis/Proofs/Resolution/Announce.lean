import LuaAnalysis.Proofs.Resolution.Booking
import LuaAnalysis.Proofs.Walk.Blocks
import Mathlib.Data.List.Forall2

/-!
# Announcing names

What a walk announces between two states (`Announced`): for its own file the mentions that it has
come across, in order, and for every file that it has finished on the way all mentions of that file.
In a pass that walks files one by one, the globals among them are those that `Ledger.resolved` finds
from the events alone, and the ledger afterwards is the one that `Ledger.bookAll` computes: what a
store holds from earlier walks makes no difference. A read or a write of a name announces the
mention of the name and books its event (`spoken_of_acts`).
-/

namespace LuaAnalysis

open List

variable {f : FileId} {s : Store}

namespace FileIndex

variable {x : FileIndex} {u : Mention}

theorem Stands.reports {id : VariableId} {role : NameRole} (h : x.Stands s u id)
    (hread : role = .read ↔ u.role = .read) (hrole : u.binding.isSome → role = u.role) (f : FileId)
    (function : FunctionId) :
    x.Reports f u
      { name := u.name
        file := f
        range := u.range
        role
        declaration := some (s.variableAt id).key
        symbolClass := (s.variableAt id).classIn function } := by
  refine ⟨rfl, rfl, rfl, hread, fun d hd => ?_, fun hfree => ?_⟩
  · rw [Stands, hd] at h
    obtain ⟨-, hscope, hkey⟩ := h
    refine ⟨hrole (by rw [hd]; rfl), congrArg some hkey, ?_⟩
    exact (Variable.isLocal_classIn).trans hscope
  · have hglobal := (stands_of_free hfree).1 h
    refine ⟨?_, fun d hd => ?_⟩
    · exact (Variable.isLocal_classIn).trans (by rw [Variable.isLocal, hglobal.scope]; rfl)
    · cases hd
      exact hglobal.assigned

theorem reports_unbound (hu : u.binding = none) (hread : u.role = .read) {symbolClass : SymbolClass}
    (hclass : symbolClass.isLocal = false) :
    x.Reports f u
      { name := u.name, file := f, range := u.range, role := .read, declaration := none,
        symbolClass } := by
  refine ⟨rfl, rfl, rfl, ⟨fun _ => hread, fun _ => rfl⟩, fun d hd => ?_, fun _ =>
    ⟨hclass, fun d hd => nomatch hd⟩⟩
  rw [hu] at hd
  cases hd

theorem assigns_of_mem (hu : u.binding = none) (hrole : u.role = .write) (hmem : u ∈ x.mentions f) :
    x.Assigns u.name ⟨f, u.range⟩ := by
  obtain ⟨name, range, role, binding⟩ := u
  cases hu
  cases hrole
  exact hmem

end FileIndex

namespace WalkM

variable {env : WalkEnv} {f g : FileId} {ms ms' : List Mention} {γ γ' : Ledger}
  {es es' : List Event} {w w' w'' : Walk}
  {o : Occurrence} {u : Mention}

/-! ## Between two states -/

/-- What a file that a walk from entry files has finished in between has to say. -/
def owed (env : WalkEnv) (w w' : Walk) (g : FileId) : List Mention :=
  if env.pass = .project ∧ g ∉ w.tables.files.keys ∧
    g ∈ w'.tables.files.keys then env.files.mentions g else []

/-- The file `f` has announced `ms`, and every file that has been finished in between all that it
mentions. Files that are walked one by one announce the globals that their events resolve to. -/
structure Announced (env : WalkEnv) (f : FileId) (ms : List Mention) (γ : Ledger) (es : List Event)
    (w w' : Walk) : Prop where
  active : w'.phase.active = w.phase.active
  kept : ∀ g ∈ w.tables.files.keys, g ∈ w'.tables.files.keys
  unfinished : ∀ g ∈ w.phase.active, g ∈ w'.tables.files.keys → g ∈ w.tables.files.keys
  names : ∃ os, w'.occurrences.toList = w.occurrences.toList ++ os ∧
    (∀ g, List.Forall₂ (env.files.Reports g) (if g = f then ms else owed env w w' g)
      (os.filter (·.file = g))) ∧
    (env.OneByOne → os.filterMap Occurrence.free? = Ledger.resolved env.abroad f γ es)

theorem owed_of_files_eq (h : w'.tables.files = w.tables.files) : owed env w w' g = [] := by
  unfold owed
  rw [h]
  exact if_neg fun hg => hg.2.1 hg.2.2

theorem owed_trans (h : ∀ g ∈ w.tables.files.keys, g ∈ w'.tables.files.keys)
    (h' : ∀ g ∈ w'.tables.files.keys, g ∈ w''.tables.files.keys) :
    owed env w w' g ++ owed env w' w'' g = owed env w w'' g := by
  unfold owed
  by_cases hp : env.pass = .project
  · by_cases hg : g ∈ w.tables.files.keys
    · simp [hg, h g hg]
    · by_cases hg' : g ∈ w'.tables.files.keys
      · simp [hp, hg, hg', h' g hg']
      · simp [hp, hg, hg']
  · simp [hp]

/-- Every file that has been finished in between has announced all that it mentions, and no other
has announced anything. -/
structure Paid (env : WalkEnv) (w w' : Walk) : Prop where
  kept : ∀ g ∈ w.tables.files.keys, g ∈ w'.tables.files.keys
  names : ∃ os, w'.occurrences.toList = w.occurrences.toList ++ os ∧
    ∀ g, List.Forall₂ (env.files.Reports g) (owed env w w' g) (os.filter (·.file = g))

namespace Paid

theorem refl (env : WalkEnv) (w : Walk) : Paid env w w where
  kept _ hg := hg
  names := by
    refine ⟨[], (append_nil _).symm, fun g => ?_⟩
    rw [owed_of_files_eq rfl]
    exact .nil

theorem trans (h : Paid env w w') (h' : Paid env w' w'') : Paid env w w'' where
  kept g hg := h'.kept g (h.kept g hg)
  names := by
    obtain ⟨os, hos, hnames⟩ := h.names
    obtain ⟨os', hos', hnames'⟩ := h'.names
    refine ⟨os ++ os', by rw [hos', hos, append_assoc], fun g => ?_⟩
    rw [filter_append, ← owed_trans h.kept h'.kept]
    exact rel_append (hnames g) (hnames' g)

end Paid

namespace Announced

theorem of_eq (ha : w'.phase.active = w.phase.active) (hf : w'.tables.files = w.tables.files)
    (ho : w'.occurrences = w.occurrences) : Announced env f [] γ [] w w' where
  active := ha
  kept g hg := by rwa [hf]
  unfinished g _ hg := by rwa [hf] at hg
  names := by
    refine ⟨[], by rw [ho, append_nil], fun g => ?_, fun _ => rfl⟩
    rw [owed_of_files_eq hf, ite_self]
    exact .nil

theorem trans (h : Announced env f ms γ es w w') (h' : Announced env f ms' γ' es' w' w'')
    (hγ : env.OneByOne → γ' = Ledger.bookAll env.abroad f γ es) :
    Announced env f (ms ++ ms') γ (es ++ es') w w'' where
  active := h'.active.trans h.active
  kept g hg := h'.kept g (h.kept g hg)
  unfinished g ha hg := h.unfinished g ha (h'.unfinished g (by rwa [h.active]) hg)
  names := by
    obtain ⟨os, hos, hnames, hfree⟩ := h.names
    obtain ⟨os', hos', hnames', hfree'⟩ := h'.names
    refine ⟨os ++ os', by rw [hos', hos, append_assoc], fun g => ?_, fun ho => ?_⟩
    · have happend := rel_append (hnames g) (hnames' g)
      rw [filter_append, ← owed_trans h.kept h'.kept]
      split
      · next hg => simpa only [if_pos hg] using happend
      · next hg => simpa only [if_neg hg] using happend
    · rw [filterMap_append, hfree ho, hfree' ho, hγ ho, Ledger.resolved_append]

theorem of_paid (h : Paid env w w') (hp : env.pass = .project)
    (ha : w'.phase.active = w.phase.active) (hu : ∀ g ∈ w.phase.active, g ∈ w'.tables.files.keys →
      g ∈ w.tables.files.keys) (hf : f ∈ w.phase.active) : Announced env f [] γ [] w w' where
  active := ha
  kept := h.kept
  unfinished := hu
  names := by
    obtain ⟨os, hos, hnames⟩ := h.names
    refine ⟨os, hos, fun g => ?_, fun ho => absurd hp ho.pass⟩
    split
    · next hg =>
      have hnone : owed env w w' g = [] := if_neg fun hx => hx.2.1 (hu g (hg ▸ hf) hx.2.2)
      rw [← hnone]
      exact hnames g
    · exact hnames g

theorem paid {r : FileResult} (h : Announced env f (env.files.mentions f) γ es w w')
    (hp : env.pass = .project) (hnew : f ∉ w.tables.files.keys)
    (hfiles : w''.tables.files = w'.tables.files.insert f r)
    (hoccurrences : w''.occurrences = w'.occurrences) : Paid env w w'' := by
  have hkeys : ∀ g, g ∈ w''.tables.files.keys ↔ g = f ∨ g ∈ w'.tables.files.keys := by
    intro g
    rw [hfiles]
    exact OrderedMap.mem_keys_insert
  obtain ⟨os, hos, hnames, -⟩ := h.names
  refine ⟨fun g hg => (hkeys g).2 (.inr (h.kept g hg)), os, by rw [hoccurrences, hos], fun g => ?_⟩
  have howed : owed env w w'' g = if g = f then env.files.mentions f else owed env w w' g := by
    unfold owed
    by_cases hg : g = f
    · subst hg
      simp [hp, hnew, hkeys]
    · simp [hkeys, hg]
  rw [howed]
  exact hnames g

theorem push (h : env.files.Reports f u o) (ha : w'.phase.active = w.phase.active)
    (hf : w'.tables.files = w.tables.files) (ho : w'.occurrences = w.occurrences.push o)
    (hfree : env.OneByOne → o.free?.toList = Ledger.resolved env.abroad f γ es) :
    Announced env f [u] γ es w w' where
  active := ha
  kept g hg := by rwa [hf]
  unfinished g _ hg := by rwa [hf] at hg
  names := by
    refine ⟨[o], by rw [ho, Array.toList_push], fun g => ?_, fun h => ?_⟩
    · rw [owed_of_files_eq hf]
      by_cases hg : g = f
      · subst hg
        rw [if_pos rfl, filter_cons_of_pos (by simp [h.file])]
        exact .cons h .nil
      · rw [if_neg hg, filter_cons_of_neg (by simpa [h.file] using Ne.symm hg)]
        exact .nil
    · rw [← hfree h]
      cases hnone : o.free? <;> simp [hnone]

end Announced

/-- The file `f` has announced `ms` and booked `es`, and the tables still lead to globals. -/
structure Spoken (env : WalkEnv) (f : FileId) (ms : List Mention) (es : List Event)
    (w w' : Walk) : Prop where
  grounded : Grounded env w'
  ledger : env.OneByOne → w'.ledger = Ledger.bookAll env.abroad f w.ledger es
  announced : Announced env f ms w.ledger es w w'

namespace Spoken

theorem of_mute (h : Grounded env w) (hm : Mute env w w') : Spoken env f [] [] w w' :=
  ⟨h.mute hm, fun _ => hm.ledger_eq h, .of_eq hm.active (by rw [hm.tables]) hm.occurrences⟩

theorem of_soundless (h : Grounded env w) (hs : Soundless env w w') : Spoken env f [] [] w w' :=
  of_mute h (.of_soundless hs)

theorem trans (h : Spoken env f ms es w w') (h' : Spoken env f ms' es' w' w'') :
    Spoken env f (ms ++ ms') (es ++ es') w w'' where
  grounded := h'.grounded
  ledger ho := by rw [h'.ledger ho, h.ledger ho, Ledger.bookAll_append]
  announced := h.announced.trans h'.announced h.ledger

theorem trans_mute (h : Spoken env f ms es w w') (hm : Mute env w' w'') :
    Spoken env f ms es w w'' := by
  have hall := h.trans (of_mute h.grounded hm)
  rwa [append_nil, append_nil] at hall

theorem mute_trans (h : Grounded env w) (hm : Mute env w w') (h' : Spoken env f ms es w' w'') :
    Spoken env f ms es w w'' :=
  (of_mute h hm).trans h'

theorem load (h : Spoken env f ms [] w w') (l : LoadCall) : Spoken env f ms [.load l] w w' :=
  ⟨h.grounded, h.ledger, { h.announced with }⟩

theorem push (h : Grounded env w') (hr : env.files.Reports f u o)
    (ha : w'.phase.active = w.phase.active) (hf : w'.tables.files = w.tables.files)
    (ho : w'.occurrences = w.occurrences)
    (hledger : env.OneByOne → w'.ledger = Ledger.bookAll env.abroad f w.ledger es)
    (hfree : env.OneByOne → o.free?.toList = Ledger.resolved env.abroad f w.ledger es) :
    Spoken env f [u] es w { w' with occurrences := w'.occurrences.push o } :=
  ⟨h.of_eq rfl rfl rfl rfl, hledger, .push hr ha hf (by rw [ho]) hfree⟩

end Spoken

variable {u : Mention} {id : VariableId} {role : NameRole} {e : Event} {name : String}

theorem free?_of_stands {x : FileIndex} (h : x.Stands s u id) {file : FileId}
    {function : FunctionId} : (Occurrence.free?
      { name, file, range := u.range, role, declaration := some (s.variableAt id).key
        symbolClass := (s.variableAt id).classIn function }).toList =
      if u.binding.isSome then [] else [(u.range, (s.variableAt id).key)] := by
  rw [Occurrence.free?, Variable.isLocal_classIn, Variable.isLocal]
  cases hu : u.binding with
  | some d =>
    rw [FileIndex.Stands, hu] at h
    rw [if_pos h.2.1]
    rfl
  | none =>
    rw [FileIndex.stands_of_free hu] at h
    rw [h.scope]
    rfl

theorem resolved_singleton {o : Abroad} :
    Ledger.resolved o f γ [e] = (e.declaration? o f γ).toList.map (e.range, ·) :=
  append_nil _

theorem spoken_notify (hm : Mute env w w') (h : Grounded env w) (hf : w.frame.file = f)
    (hid : env.files.Stands w.store u id) (hread : role = .read ↔ u.role = .read)
    (hrole : u.binding.isSome → role = u.role) (hbook : ∀ γ, e.book env.abroad f γ = γ)
    (hd : env.OneByOne → e.declaration? env.abroad f w.ledger =
      if u.binding.isSome then none else some (w.store.variableAt id).key)
    (hrange : e.range = u.range) : Spoken env f [u] [e] w (notify u.name u.range role id w').2 := by
  have hfile := hm.file.trans hf
  have hid' := hid.of_grows hm.vars
  refine .push (h.mute hm) (hfile ▸ hid'.reports hread hrole _ _) hm.active
    (by rw [hm.tables]) hm.occurrences (fun _ => ?_)
    fun ho => ?_
  · rw [hm.ledger_eq h]
    exact (hbook _).symm
  · rw [resolved_singleton, hd ho, hrange]
    refine (free?_of_stands hid').trans ?_
    have hkey : (w'.store.variableAt id).key = (w.store.variableAt id).key :=
      Variable.key_of_core (hm.vars.core_eq _ hid.lt)
    rw [hkey]
    split <;> rfl

/-! ## Reading -/

variable {range : TextRange}

theorem mute_readUndefined : Mute env w (readUndefined name range w).2 := by
  rw [readUndefined, bind_apply, report_apply]
  exact .of_frame rfl rfl rfl

theorem mute_report {kind : Kind} {message : String} {related : List RelatedPlace} :
    Mute env w (report kind message range related w).2 := by
  rw [report_apply]
  exact .of_frame rfl rfl rfl

theorem spoken_readName (hw : Placed w) (h : Grounded env w) (hf : w.frame.file = f)
    (hu : u.binding = w.store.bindingAt? w.frame.scope u.name) (hrole : u.role = .read)
    {exempt top : Bool} :
    Spoken env f [u] [.read u.name u.range u.binding exempt top] w
      (readName env u.name u.range w).2 := by
  have hlooks := looks_lookup env w u.name
  have hs := Mute.of_soundless hlooks.soundless
  have hans := answers_lookup hw h hu hlooks
  have hfile := hs.file.trans hf
  have hg := h.mute hs
  -- The declaration of the event is that of the variable which the name is looked up to be.
  have hd : env.OneByOne →
    Event.declaration? env.abroad f w.ledger (.read u.name u.range u.binding exempt top) =
      if u.binding.isSome then none
      else Lookup.declaration? (lookup env u.name w).2.store (lookup env u.name w).1 := by
    intro ho
    cases hb : u.binding with
    | some d => rfl
    | none =>
      have hl : w.store.lookupLocal? w.frame.scope u.name = none := by
        rw [hb, Store.bindingAt?] at hu
        exact Option.map_eq_none_iff.1 hu.symm
      exact declaration?_lookup ho h hl hlooks
  rw [readName, bind_apply]
  refine .mute_trans h hs ?_
  rw [← hs.ledger_eq h] at hd
  clear hlooks hs
  generalize lookup env u.name w = out at hans hfile hg hd
  obtain ⟨res, w₁⟩ := out
  have hread : NameRole.read = .read ↔ u.role = .read := by rw [hrole]
  have hunbound : ∀ {c : SymbolClass}, c.isLocal = false → u.binding = none →
    Lookup.declaration? w₁.store res = none →
      Spoken env f [u] [.read u.name u.range u.binding exempt top] w₁
      (notifyUnbound u.name u.range c w₁).2 := by
    intro c hc hb hnone
    refine .push hg (hfile ▸ FileIndex.reports_unbound hb hrole hc) rfl rfl rfl (fun _ => rfl)
      fun ho => ?_
    rw [resolved_singleton, hd ho, hb, hnone, Occurrence.free?]
    split <;> rfl
  cases res with
  | found id =>
    have hused : Silent env
      (changeStore (·.modifyVariable id fun v => { v with flags.used := true })) :=
      silent_modifyVariable env fun _ => rfl
    exact spoken_notify (.of_soundless (hused w₁)) hg hfile hans hread (fun _ => hrole.symm)
      (fun _ => rfl) hd rfl
  | tooEarly id origin =>
    dsimp only
    rw [bind_apply, frame_apply]
    split
    · exact spoken_notify mute_report hg hfile hans hread (fun _ => hrole.symm)
        (fun _ => rfl) hd rfl
    · exact spoken_notify (.of_soundless (.refl w₁)) hg hfile hans hread (fun _ => hrole.symm)
        (fun _ => rfl) hd rfl
  | builtin => exact hunbound rfl hans rfl
  | unresolved =>
    dsimp only
    rw [bind_apply, bind_apply, frame_apply]
    split
    · exact (hunbound rfl hans rfl).trans_mute mute_readUndefined
    · exact hunbound rfl hans rfl

/-! ## Writing -/

theorem Enrolls.spoken {isNew : Bool} (hn : Enrolls env e u.name u.range role id isNew w w')
    (h : Grounded env w) (hf : w.frame.file = f) (hid : env.files.IsGlobal w.store u.name id)
    (hkey : e.globalKey? = some u.name) (hrange : e.range = u.range) (hu : u.binding = none)
    (hwrite : u.role = .write) (hrole : role ≠ .read)
    (hd : env.OneByOne → e.declaration? env.abroad f w.ledger = some (w.store.variableAt id).key) :
    Spoken env f [u] [e] w w' := by
  obtain ⟨w₁, w₂, hbefore, hafter, hlast⟩ := hn
  have hm₁ := Mute.of_soundless hbefore
  have h₁ := h.mute hm₁
  have hid₁ := hid.of_grows hm₁.vars
  have hm₂ := Mute.of_soundless hafter
  have hentered := grounded_entered h₁ hid₁ hkey isNew
  have h₂ := hentered.mute hm₂
  have hglobal : env.files.IsGlobal w₂.store u.name id := hid₁.of_grows hm₂.vars
  have hstands := (FileIndex.stands_of_free hu).2 hglobal
  have hkeys : (w₁.store.variableAt id).key = (w.store.variableAt id).key ∧
      (w₂.store.variableAt id).key = (w₁.store.variableAt id).key :=
    ⟨Variable.key_of_core (hm₁.vars.core_eq _ hid.lt),
      Variable.key_of_core (hm₂.vars.core_eq _ hid₁.lt)⟩
  have hd₁ : env.OneByOne →
    e.declaration? env.abroad f w₁.ledger = some (w₁.store.variableAt id).key := fun ho => by
    rw [hm₁.ledger_eq h, hd ho, hkeys.1]
  have hfile : w₂.frame.file = f := hm₂.file.trans (hm₁.file.trans hf)
  have hfiles : (entered env e id isNew w₁).tables.files = w₁.tables.files := by
    rcases tables_entered env e id isNew w₁ with ht | ⟨-, ht⟩ <;> rw [ht]
  have hread : role = .read ↔ u.role = .read := by simp [hwrite, hrole]
  have hreports := hstands.reports hread (by simp [hu]) w₂.frame.file w₂.frame.function
  rw [hfile] at hreports
  refine .mute_trans h hm₁
    (.trans_mute (.push h₂ hreports hm₂.active (by rw [hm₂.tables, hfiles]) hm₂.occurrences
    (fun ho => ?_) fun ho => ?_) (hfile ▸ .of_soundless hlast))
  · rw [hm₂.ledger_eq hentered, ledger_entered hkey (hd₁ ho)]
    rfl
  · rw [resolved_singleton, hd₁ ho, hrange, ← hkeys.2]
    refine (free?_of_stands hstands).trans ?_
    rw [hu]
    rfl

theorem Writes.spoken (hwrites : Writes env e u.name u.range w w') (h : Grounded env w)
    (hkey : e.globalKey? = some u.name) (hrange : e.range = u.range) (hu : u.binding = none)
    (hrole : u.role = .write) (hmem : u ∈ env.files.mentions w.frame.file) :
    Spoken env w.frame.file [u] [e] w w' := by
  cases hwrites with
  | known hp hn =>
    have hprovides := provides_known? hkey hp
    have hm := Mute.of_soundless hprovides.soundless
    obtain ⟨hglobal, hdecl⟩ := h.fetch hprovides
    refine .mute_trans h hm
      (hn.spoken (h.mute hm) hm.file hglobal hkey hrange hu hrole (by decide) fun ho => ?_)
    rw [hm.ledger_eq h, key_known? ho hkey, hp, hdecl]
    rfl
  | @new v w₁ _ hnone hw hscope hk hroot hn =>
    have hm := Mute.of_soundless (hw.trans (silent_addVariable env v w₁))
    have hassigns := FileIndex.assigns_of_mem hu hrole hmem
    rw [← hk] at hassigns
    have hglobal := FileIndex.isGlobal_addVariable (s := w₁.store) hscope hassigns
    refine .mute_trans h hm
      (hn.spoken (h.mute hm) hm.file hglobal hkey hrange hu hrole (by decide) fun ho => ?_)
    rw [hm.ledger_eq h, key_known? ho hkey, hnone, hrange]
    exact congrArg some
      (hk.symm.trans (congrArg Variable.key w₁.store.variableAt_addVariable_self).symm)

theorem spoken_of_acts (hacts : Acts env w e u w') (hw : Placed w) (h : Grounded env w)
    (hmem : u ∈ env.files.mentions w.frame.file) : Spoken env w.frame.file [u] [e] w w' := by
  cases hacts with
  | read n => exact spoken_readName hw h rfl rfl rfl
  | write n info statement =>
    cases hl : w.store.lookupLocal? w.frame.scope n.text with
    | some id =>
      obtain ⟨w₁, hw₁, heq⟩ := soundless_assignLocal
      have hassign : (assignName env n.text n.range info statement w).2 =
          (notify n.text n.range .write id w₁).2 := by
        rw [assignName, bind_apply, frame_apply, bind_apply, ask_apply, hl]
        exact heq
      have hbound : w.store.bindingAt? w.frame.scope n.text = some (w.store.variableAt id).key := by
        rw [Store.bindingAt?, hl, Option.map_some]
      have hstands : env.files.Stands w.store
        ⟨n.text, n.range, .write, w.store.bindingAt? w.frame.scope n.text⟩ id :=
        hw.stands_local rfl hl
      rw [hassign]
      refine spoken_notify (.of_soundless hw₁) h rfl hstands (by simp) (fun _ => rfl) (fun _ => ?_)
        (fun _ => ?_) rfl
      · rw [hbound]; rfl
      · rw [hbound]; rfl
    | none =>
      have hwrites : Writes env _ _ _ w _ := writes_assignName hl n.range info statement
      have hfree := bindingAt?_eq_none hl
      rw [hfree] at hmem ⊢
      exact hwrites.spoken h rfl rfl rfl rfl hmem
  | writeRoot n info => exact writes_assignRootGlobal.spoken h rfl rfl rfl rfl hmem

end WalkM

end LuaAnalysis
