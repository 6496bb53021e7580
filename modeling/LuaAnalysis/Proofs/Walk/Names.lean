import LuaAnalysis.Proofs.Walk.Quiet
import LuaAnalysis.Proofs.Walk.Script

/-!
# Reads and writes of names

What one read or write of a name changes, in every pass (`Step`): a write of a name that is not
local makes it a global of the file, and a read is noted as undefined exactly when nothing resolves
the name (`resolves`).
-/

namespace LuaAnalysis

/-! ## What an event asks for -/

namespace Event

def globalKey? : Event → Option String
  | write name _ none | writeRoot name _ => some name
  | _ => none

def rootKey? : Event → Option String
  | writeRoot name _ => some name
  | _ => none

def load? : Event → Option LoadCall
  | load l => some l
  | _ => none

def isRoot : Event → Bool
  | writeRoot _ _ => true
  | _ => false

/-- A read that is undefined unless a global resolves it. -/
def freeUse? : Event → Option (String × TextRange)
  | read name range none false _ => some (name, range)
  | _ => none

/-- A read at top level that is too early unless a global has been seen. -/
def topUse? : Event → Option (String × TextRange)
  | read name range none false true => some (name, range)
  | _ => none

end Event

def noteKey (ks : List String) : Option String → List String
  | none => ks
  | some name => if name ∈ ks then ks else ks ++ [name]

theorem mem_noteKey_iff (ks : List String) (k? : Option String) (n : String) :
    n ∈ noteKey ks k? ↔ n ∈ ks ∨ k? = some n := by
  cases k? with
  | none => simp [noteKey]
  | some k =>
    simp only [noteKey, Option.some.injEq]
    split
    · next hk => exact ⟨.inl, fun h => h.elim id fun heq => heq ▸ hk⟩
    · simp [eq_comm]

/-- The undefined names of a file after a read. -/
def noteUse (m : OrderedMap String (List TextRange)) :
    Option (String × TextRange) → OrderedMap String (List TextRange)
  | none => m
  | some (name, range) => m.alter name fun sites => sites.getD [] ++ [range]

def undefinedDiagnostic (path : String) (u : String × TextRange) : Diagnostic :=
  { kind := .undefinedGlobal, message := s!"undefined global '{u.1}'", file := path, range := u.2 }

def earlyDiagnostic (path : String) (u : String × TextRange) (origin : RelatedPlace) : Diagnostic :=
  { kind := .loadOrder, message := s!"global '{u.1}' is used before its definition has run",
    file := path, range := u.2
    related := [origin] }

def Lookup.origin? : Lookup → Option RelatedPlace
  | tooEarly _ origin => some origin
  | _ => none

/-! ## Tables of globals -/

/-- Where names lead: plain globals, and members of `_G`. -/
structure GlobalTables where
  globals : OrderedMap String VariableId
  rootGlobals : OrderedMap String VariableId

def GlobalTables.lookup? (t : GlobalTables) : Event → Option VariableId
  | .write name _ none => t.globals.get? name
  | .writeRoot name _ => t.rootGlobals.get? name
  | _ => none

/-- The tables after a write that goes to the variable `id`. The first entry of a name stays, and a
member of `_G` is a global. -/
def GlobalTables.enter (t : GlobalTables) (e : Event) (id : VariableId) : GlobalTables :=
  match e with
  | .write name _ none => { t with globals := t.globals.insertIfNew name id }
  | .writeRoot name _ => ⟨t.globals.insertIfNew name id, t.rootGlobals.insertIfNew name id⟩
  | _ => t

def NameTables.own (n : NameTables) : GlobalTables :=
  ⟨n.globals, n.rootGlobals⟩

def NameTables.shared (n : NameTables) : GlobalTables :=
  ⟨n.sharedGlobals, n.sharedRootGlobals⟩

/-- A pass in which writes go to the variables of the walk alone. -/
def Pass.IsDirect (pass : Pass) : Prop :=
  pass = .fileLocal ∨ pass = .project

/-- The variable that a write goes to: one of the file, or a shared one in a walk from entry
files. -/
def NameTables.target? (n : NameTables) (pass : Pass) (e : Event) : Option VariableId :=
  n.own.lookup? e <|> if pass = .project then n.shared.lookup? e else none

/-- The variable `id` is there, and `root` says whether it was defined as a member of `_G`. -/
structure Store.Holds (s : Store) (id : VariableId) (root : Bool) : Prop where
  lt : id.index < s.vars.size
  flag : (s.variableAt id).flags.rootNamespace = root

theorem Store.Holds.of_grows {s s' : Store} {id : VariableId} {root : Bool} (h : s.Holds id root)
    (hv : Grows Variable.core s.vars s'.vars) : s'.Holds id root := by
  have hcore := congrArg (fun v : Variable => v.flags.rootNamespace) (hv.core_eq id.index h.lt)
  exact ⟨Nat.lt_of_lt_of_le h.lt hv.size_le, hcore.trans h.flag⟩

/-- What an event does to the tables: a write goes to the variable that the tables lead to, or to a
new one. -/
inductive Enters (pass : Pass) (s : Store) (e : Event) (n n' : NameTables) : Prop
  | nothing (key : e.globalKey? = none) (own : n'.own = n.own) (shared : n'.shared = n.shared)
  | known {id : VariableId} (found : n.target? pass e = some id) (own : n'.own = n.own.enter e id)
      (shared : n'.shared = n.shared)
  | new {id : VariableId} (unknown : n.target? pass e = none) (holds : s.Holds id e.isRoot)
      (own : n'.own = n.own.enter e id)
      (shared : n'.shared = if pass = .project then n.shared.enter e id else n.shared)

variable {e : Event} {w : Walk} {out : Lookup × Walk} {range : TextRange}

theorem Enters.of_grows {pass : Pass} {s s' : Store} {n n' : NameTables} (h : Enters pass s e n n')
    (hv : Grows Variable.core s.vars s'.vars) : Enters pass s' e n n' := by
  cases h with
  | nothing key own shared => exact .nothing key own shared
  | known found own shared => exact .known found own shared
  | new unknown holds own shared => exact .new unknown (holds.of_grows hv) own shared

variable {env : WalkEnv} {found : FileAnalysis × VariableId} {name : String}
variable {info : ValueInfo} {statement : TextRange}

namespace WalkM

/-! ## What resolves a name that is not local -/

def isVisible (env : WalkEnv) (w : Walk) (name : String) : Bool :=
  match env.pass with
  | .fileLocal => false
  | .project => w.tables.globals.contains name
  | .scattered | .referenceSearch | .coloring => (env.firstPass.global? name).isSome

/-- Whether the definition of a global has been seen. -/
def isKnown (env : WalkEnv) (w : Walk) (name : String) : Bool :=
  w.frame.globals.contains name || w.tables.rootGlobals.contains name ||
    (env.firstPass.rootGlobal? name).isSome
    || isVisible env w name

def resolves (env : WalkEnv) (w : Walk) (name : String) : Bool :=
  isKnown env w name || Builtin.isName name || env.config.globals.isIgnored name
    || (env.pass == .project && (unfinishedDefinition? env w name).isSome)

def definitionPlace (name : String) (found : FileAnalysis × VariableId) : RelatedPlace :=
  { file := found.1.result.path, message := s!"'{name}' is defined here",
    range := (found.1.store.variableAt found.2).range }

def awaited? (env : WalkEnv) (w : Walk) (name : String) : Option RelatedPlace :=
  if isKnown env w name || Builtin.isName name || env.config.globals.isIgnored name || env.pass !=
    .project then none
  else (unfinishedDefinition? env w name).map (definitionPlace name)

variable {w' : Walk}

theorem isKnown_congr (hn : w'.names = w.names) : isKnown env w' name = isKnown env w name := by
  have hg : w'.frame.globals = w.frame.globals := congrArg NameTables.globals hn
  have hs : w'.tables.globals = w.tables.globals := congrArg NameTables.sharedGlobals hn
  have hr : w'.tables.rootGlobals = w.tables.rootGlobals := congrArg NameTables.sharedRootGlobals hn
  simp only [isKnown, isVisible, hg, hs, hr]

theorem unfinishedDefinition?_congr (hc : w'.course = w.course) :
    unfinishedDefinition? env w' name = unfinishedDefinition? env w name := by
  have hf : w'.frame.file = w.frame.file := congrArg Course.file hc
  have hp : w'.phase = w.phase := congrArg Course.phase hc
  simp only [unfinishedDefinition?, hf, hp]

theorem resolves_congr (hn : w'.names = w.names) (hc : w'.course = w.course) :
    resolves env w' name = resolves env w name := by
  rw [resolves, isKnown_congr hn, unfinishedDefinition?_congr hc, resolves]

def lostUse? (env : WalkEnv) (w : Walk) (e : Event) : Option (String × TextRange) :=
  e.freeUse?.filter fun u => !resolves env w u.1

def earlyUse? (env : WalkEnv) (w : Walk) (e : Event) : Option Diagnostic := do
  let u ← e.topUse?
  (awaited? env w u.1).map (earlyDiagnostic w.frame.path u)

end WalkM

namespace Still

variable {env : WalkEnv} {w w' : Walk}

theorem lostUse?_eq (h : Still env w w') : WalkM.lostUse? env w' e = WalkM.lostUse? env w e := by
  simp only [WalkM.lostUse?, WalkM.resolves_congr h.names h.course]

theorem earlyUse?_eq (h : Still env w w') : WalkM.earlyUse? env w' e = WalkM.earlyUse? env w e := by
  simp only [WalkM.earlyUse?, WalkM.awaited?, WalkM.isKnown_congr h.names,
    WalkM.unfinishedDefinition?_congr h.course, h.path]

end Still

namespace WalkM

/-- What a read or write of a name changes. -/
structure Step (env : WalkEnv) (e : Event) (w w' : Walk) : Prop
    extends GoesOn env (fun _ => False) w w' where
  isName : e.load? = none
  functions : Grows Function.jumps w.store.functions w'.store.functions
  place : w'.frame.place = w.frame.place
  jumpFindings : w'.jumpFindings = w.jumpFindings
  globals : w'.frame.globals.keys = noteKey w.frame.globals.keys e.globalKey?
  rootGlobals : w'.frame.rootGlobals.keys = noteKey w.frame.rootGlobals.keys e.rootKey?
  sharedGlobals : ∀ n ∈ w'.tables.globals.keys, n ∈ w.tables.globals.keys ∨ e.globalKey? = some n
  sharedRootGlobals : ∀ n ∈ w'.tables.rootGlobals.keys, n ∈ w.tables.rootGlobals.keys ∨
    e.rootKey? = some n
  undefined : w'.frame.undefined = noteUse w.frame.undefined (lostUse? env w e)
  undefinedFindings : w'.names.undefinedFindings =
    w.names.undefinedFindings ++
      ((lostUse? env w e).toList.map (undefinedDiagnostic w.frame.path)).filter w.frame.gate.admits
  earlyFindings : w'.names.earlyFindings =
    w.names.earlyFindings ++ (earlyUse? env w e).toList.filter w.frame.gate.admits
  enters : env.pass.IsDirect → Enters env.pass w'.store e w.names w'.names

namespace Step

variable {env : WalkEnv} {e : Event} {w w' w'' : Walk}

theorem of_still (h : Still env w w') (hn : e.load? = none) (hg : e.globalKey? = none)
    (hr : e.rootKey? = none) (hu : lostUse? env w e = none) (he : earlyUse? env w e = none) :
    Step env e w w' where
  toGoesOn := h.toGoesOn
  isName := hn
  functions := h.functions
  place := h.place
  jumpFindings := h.jumpFindings
  globals := by rw [hg, h.globals]; rfl
  rootGlobals := by rw [hr, h.rootGlobals]; rfl
  sharedGlobals n hn := .inl (h.sharedGlobals ▸ hn)
  sharedRootGlobals n hn := .inl (h.sharedRootGlobals ▸ hn)
  undefined := by rw [hu, h.undefined]; rfl
  undefinedFindings := by rw [hu, h.names]; simp
  earlyFindings := by rw [he, h.names]; simp
  enters _ := .nothing hg (by rw [h.names]) (by rw [h.names])

theorem trans_still (h : Step env e w w') (h' : Still env w' w'') : Step env e w w'' where
  toGoesOn := h.toGoesOn.trans h'.toGoesOn
  isName := h.isName
  functions := h.functions.trans h'.functions
  place := h'.place.trans h.place
  jumpFindings := h'.jumpFindings.trans h.jumpFindings
  globals := by rw [h'.globals, h.globals]
  rootGlobals := by rw [h'.rootGlobals, h.rootGlobals]
  sharedGlobals n hn := h.sharedGlobals n (h'.sharedGlobals ▸ hn)
  sharedRootGlobals n hn := h.sharedRootGlobals n (h'.sharedRootGlobals ▸ hn)
  undefined := by rw [h'.undefined, h.undefined]
  undefinedFindings := by rw [h'.names, h.undefinedFindings]
  earlyFindings := by rw [h'.names, h.earlyFindings]
  enters hp := h'.names ▸ (h.enters hp).of_grows h'.store.vars

theorem of_still_trans (h : Still env w w') (h' : Step env e w' w'') : Step env e w w'' where
  toGoesOn := h.toGoesOn.trans h'.toGoesOn
  isName := h'.isName
  functions := h.functions.trans h'.functions
  place := h'.place.trans h.place
  jumpFindings := h'.jumpFindings.trans h.jumpFindings
  globals := by rw [h'.globals, h.globals]
  rootGlobals := by rw [h'.rootGlobals, h.rootGlobals]
  sharedGlobals n hn := h.sharedGlobals ▸ h'.sharedGlobals n hn
  sharedRootGlobals n hn := h.sharedRootGlobals ▸ h'.sharedRootGlobals n hn
  undefined := by rw [h'.undefined, h.lostUse?_eq, h.undefined]
  undefinedFindings := by
    rw [h'.undefinedFindings, h.lostUse?_eq, h.names, h.path, part_eq h.place Frame.gate]
  earlyFindings := by rw [h'.earlyFindings, h.earlyUse?_eq, h.names, part_eq h.place Frame.gate]
  enters hp := h.names ▸ h'.enters hp

end Step

end WalkM

theorem Store.variableAt_addVariable_self (s : Store) {v : Variable} :
    (s.addVariable v).1.variableAt (s.addVariable v).2 = v :=
  s.variableAt_addVariable.trans (if_pos rfl)

theorem Store.holds_addVariable (s : Store) {v : Variable} :
    (s.addVariable v).1.Holds (s.addVariable v).2 v.flags.rootNamespace :=
  ⟨by simp [Store.addVariable], by rw [s.variableAt_addVariable_self]⟩

/-! ## Who provides a variable -/

structure FirstPass.Defines (p : FirstPass) (name : String)
    (found : FileAnalysis × VariableId) : Prop where
  mem : found.1 ∈ p.analyses
  listed : found.1.result.globals.get? name = some found.2 ∨
    found.1.result.rootGlobals.get? name = some found.2

namespace FirstPass

variable {p : FirstPass}

theorem defines_global? (h : p.global? name = some found) : p.Defines name found := by
  obtain ⟨a, ha, hf⟩ := List.exists_of_findSome?_eq_some h
  obtain ⟨v, hv, rfl⟩ := Option.map_eq_some_iff.1 hf
  exact ⟨ha, .inl hv⟩

theorem defines_rootGlobal? (h : p.rootGlobal? name = some found) : p.Defines name found := by
  obtain ⟨a, ha, hf⟩ := List.exists_of_findSome?_eq_some h
  obtain ⟨v, hv, rfl⟩ := Option.map_eq_some_iff.1 hf
  exact ⟨ha, .inr hv⟩

theorem defines_globalIn? {files : List FileId} (h : p.globalIn? files name = some found) :
    p.Defines name found := by
  obtain ⟨f, -, hf⟩ := List.exists_of_findSome?_eq_some h
  obtain ⟨a, ha, hmap⟩ := Option.bind_eq_some_iff.1 hf
  obtain ⟨v, hv, rfl⟩ := Option.map_eq_some_iff.1 hmap
  exact ⟨List.mem_of_find?_eq_some ha, .inl hv⟩

end FirstPass

/-- Who provides the variable of a name: a table of the walk, or the walk of another file alone. -/
inductive Provider where
  | table (id : VariableId)
  | file (found : FileAnalysis × VariableId)

namespace WalkM

theorem defines_unfinishedDefinition? (h : unfinishedDefinition? env w name = some found) :
    env.firstPass.Defines name found := by
  rw [unfinishedDefinition?] at h
  cases hin : env.firstPass.globalIn? (w.frame.file :: w.phase.active) name with
  | some x =>
    obtain rfl : x = found := by simpa [hin] using h
    exact FirstPass.defines_globalIn? hin
  | none => exact FirstPass.defines_global? (by simpa [hin] using h)

def fetch : Provider → WalkM VariableId
  | .table id => pure id
  | .file found => importFrom found

def fetch? (p? : Option Provider) : WalkM (Option VariableId) :=
  match p? with
  | some p => some <$> fetch p
  | none => pure none

/-- Who provides a name that the current file does not define: a shared table, or the walk of the
file that does. -/
def outside? (pass : Pass) (id? : Option VariableId) (found? : Option (FileAnalysis × VariableId)) :
    Option Provider :=
  match pass with
  | .fileLocal => none
  | .project => id?.map .table
  | .scattered | .referenceSearch | .coloring => found?.map .file

def visible? (env : WalkEnv) (w : Walk) (name : String) : Option Provider :=
  outside? env.pass (w.tables.globals.get? name) (env.firstPass.global? name)

/-- Who provides the variable that a write goes to. -/
def known? (env : WalkEnv) (w : Walk) : Event → Option Provider
  | .write name _ none => ((w.frame.globals.get? name).map .table).or (visible? env w name)
  | .writeRoot name _ => ((w.frame.rootGlobals.get? name).map .table).or
      (outside? env.pass (w.tables.rootGlobals.get? name) (env.firstPass.rootGlobal? name))
  | _ => none

def seen? (env : WalkEnv) (w : Walk) (name : String) : Option Provider :=
  ((w.frame.globals.get? name).map .table).or <| ((w.tables.rootGlobals.get? name).map .table).or <|
    ((env.firstPass.rootGlobal? name).map .file).or (visible? env w name)

inductive Provides (env : WalkEnv) (w : Walk) (name : String) : Provider → Prop
  | own {id : VariableId} (h : w.frame.globals.get? name = some id ∨
      w.frame.rootGlobals.get? name = some id) :
    Provides env w name (.table id)
  | shared {id : VariableId} (h : w.tables.globals.get? name = some id ∨
      w.tables.rootGlobals.get? name = some id) :
    Provides env w name (.table id)
  | file {found : FileAnalysis × VariableId} (h : env.firstPass.Defines name found) :
      Provides env w name (.file found)

variable {w : Walk} {p : Provider}

theorem provides_outside? {id? : Option VariableId} {found? : Option (FileAnalysis × VariableId)}
    (hid : ∀ id, id? = some id → Provides env w name (.table id))
    (hfound : ∀ found, found? = some found → env.firstPass.Defines name found)
    (h : outside? env.pass id? found? = some p) : Provides env w name p := by
  unfold outside? at h
  split at h
  · cases h
  · obtain ⟨id, hsome, rfl⟩ := Option.map_eq_some_iff.1 h
    exact hid id hsome
  all_goals
    obtain ⟨found, hsome, rfl⟩ := Option.map_eq_some_iff.1 h
    exact .file (hfound found hsome)

theorem provides_visible? (h : visible? env w name = some p) : Provides env w name p :=
  provides_outside? (fun _ hid => .shared (.inl hid)) (fun _ hf => FirstPass.defines_global? hf) h

theorem provides_known? (he : e.globalKey? = some name) (h : known? env w e = some p) :
    Provides env w name p := by
  unfold known? at h
  split at h
  · cases he
    rcases Option.or_eq_some_iff.1 h with hown | ⟨-, hvisible⟩
    · obtain ⟨id, hid, rfl⟩ := Option.map_eq_some_iff.1 hown
      exact .own (.inl hid)
    · exact provides_visible? hvisible
  · cases he
    rcases Option.or_eq_some_iff.1 h with hown | ⟨-, hvisible⟩
    · obtain ⟨id, hid, rfl⟩ := Option.map_eq_some_iff.1 hown
      exact .own (.inr hid)
    · exact provides_outside? (fun _ hid => .shared (.inr hid))
        (fun _ hf => FirstPass.defines_rootGlobal? hf) hvisible
  · cases h

theorem provides_seen? (h : seen? env w name = some p) : Provides env w name p := by
  rcases Option.or_eq_some_iff.1 h with hown | ⟨-, h⟩
  · obtain ⟨id, hid, rfl⟩ := Option.map_eq_some_iff.1 hown
    exact .own (.inl hid)
  rcases Option.or_eq_some_iff.1 h with hshared | ⟨-, h⟩
  · obtain ⟨id, hid, rfl⟩ := Option.map_eq_some_iff.1 hshared
    exact .shared (.inr hid)
  rcases Option.or_eq_some_iff.1 h with hroot | ⟨-, h⟩
  · obtain ⟨found, hf, rfl⟩ := Option.map_eq_some_iff.1 hroot
    exact .file (FirstPass.defines_rootGlobal? hf)
  · exact provides_visible? h

theorem isSome_seen? (env : WalkEnv) (w : Walk) (name : String) :
    (seen? env w name).isSome = isKnown env w name := by
  have hvisible : (visible? env w name).isSome = isVisible env w name := by
    unfold visible? outside? isVisible
    cases env.pass <;> simp [OrderedMap.contains]
  simp [seen?, isKnown, OrderedMap.contains, hvisible, Bool.or_assoc]

/-- Where writes go to the variables of the walk alone, the tables lead to the variable that a write
goes to. -/
theorem known?_eq_target? (hp : env.pass.IsDirect) :
    known? env w e = (w.names.target? env.pass e).map .table := by
  have houtside : ∀ id? found?, outside? env.pass id? found? =
      (if env.pass = .project then id? else none).map .table := by
    intro id? found?
    rcases hp with hp | hp <;> simp [outside?, hp]
  have hor : ∀ a b : Option VariableId, (a.map Provider.table).or (b.map .table) =
      (a <|> b).map .table := by
    intro a b
    cases a <;> rfl
  have hnone : ∀ P : Prop, ∀ _ : Decidable P, (none : Option VariableId) =
    if P then none else none :=
    fun P _ => (ite_self none).symm
  rcases e with _ | ⟨_, _, _ | _⟩ | _ | _
  · exact congrArg (Option.map _) (hnone _ _)
  · rw [known?, visible?, houtside, hor]
    rfl
  · exact congrArg (Option.map _) (hnone _ _)
  · rw [known?, houtside, hor]
    rfl
  · exact congrArg (Option.map _) (hnone _ _)

variable (env) (name) (w)

theorem visibleGlobal?_apply : visibleGlobal? env name w = fetch? (visible? env w name) w := by
  unfold visibleGlobal? visible? outside?
  generalize env.firstPass.global? name = found?
  cases env.pass with
  | fileLocal => rfl
  | project =>
    change (w.tables.globals.get? name, w) = _
    cases w.tables.globals.get? name <;> rfl
  | _ => cases found? <;> rfl

theorem knownGlobal?_apply (range : TextRange) :
    knownGlobal? env name w = fetch? (known? env w (.write name range none)) w := by
  rw [knownGlobal?, bind_apply, frame_apply, known?]
  dsimp only
  cases w.frame.globals.get? name with
  | some id => rfl
  | none => exact visibleGlobal?_apply env name w

theorem knownRootGlobal?_apply (range : TextRange) :
    knownRootGlobal? env name w = fetch? (known? env w (.writeRoot name range)) w := by
  rw [knownRootGlobal?, bind_apply, get_apply, known?]
  dsimp only
  cases w.frame.rootGlobals.get? name with
  | some id => rfl
  | none =>
    unfold outside?
    generalize env.firstPass.rootGlobal? name = found?
    dsimp only
    cases env.pass with
    | fileLocal => rfl
    | project =>
      change (w.tables.rootGlobals.get? name, w) = _
      cases w.tables.rootGlobals.get? name <;> rfl
    | _ => cases found? <;> rfl

variable {env w name}

theorem soundless_importFrom (h : found.1 ∈ env.firstPass.analyses) :
    Soundless env w (importFrom found w).2 := by
  have hcopy := Store.copiesFrom_importVariable w.store found.1.store found.1.result.file found.2
  exact
    { store := hcopy.within
      functions := .of_id hcopy.rests.functions
      marked := fun hu => hcopy.marked (hu found.1 h)
      place := rfl
      course := rfl
      names := rfl
      jumpFindings := rfl
      occurrences := rfl
      copies := fun hm => hm.of_copiesFrom h hcopy }

theorem Provides.soundless (h : Provides env w name p) : Soundless env w (fetch p w).2 := by
  cases h with
  | own | shared => exact .refl w
  | file h => exact soundless_importFrom h.mem

/-! ## Looking up -/

/-- What a name is that no local binds and of which no definition has been seen. -/
inductive Misses (env : WalkEnv) (w : Walk) (name : String) : Lookup × Walk → Prop
  | builtin (h : (Builtin.isName name || env.config.globals.isIgnored name) = true) :
      Misses env w name (.builtin, w)
  | lost (h : (Builtin.isName name || env.config.globals.isIgnored name) = false)
      (hlost : env.pass = .project → unfinishedDefinition? env w name = none) :
      Misses env w name (.unresolved, w)
  | waits {found : FileAnalysis × VariableId} {res : Lookup}
      (h : (Builtin.isName name || env.config.globals.isIgnored name) = false)
      (hp : env.pass = .project)
      (hf : unfinishedDefinition? env w name = some found)
      (hres : res = if (importFrom found w).2.isTop then .tooEarly (importFrom found w).1
        (definitionPlace name found)
        else .found (importFrom found w).1) : Misses env w name (res, (importFrom found w).2)

theorem misses_lookupUndefined : Misses env w name (lookupUndefined env name w) := by
  unfold lookupUndefined
  by_cases hb : (Builtin.isName name || env.config.globals.isIgnored name) = true
  · rw [if_pos hb]
    exact .builtin hb
  by_cases hp : env.pass = .project
  · rw [if_neg hb, if_neg (not_not_intro hp), bind_apply, get_apply]
    rw [Bool.not_eq_true] at hb
    cases hfound : unfinishedDefinition? env w name with
    | none => exact .lost hb fun _ => hfound
    | some found =>
      refine .waits hb hp hfound ?_
      change (if 0 <
        ((importFrom found w).2.store.functionAt w.frame.function).depth then _ else _) = _
      have htop : (importFrom found w).2.isTop =
        (((importFrom found w).2.store.functionAt w.frame.function).depth == 0) := rfl
      rw [htop]
      cases ((importFrom found w).2.store.functionAt w.frame.function).depth <;> rfl
  · rw [if_neg hb, if_pos hp]
    exact .lost (Bool.not_eq_true _ ▸ hb) fun h => absurd h hp

inductive Looks (env : WalkEnv) (w : Walk) (name : String) : Lookup × Walk → Prop
  | bound {id : VariableId} (h : w.store.lookupLocal? w.frame.scope name = some id) :
      Looks env w name (.found id, w)
  | seen {p : Provider} (hl : w.store.lookupLocal? w.frame.scope name = none)
      (h : seen? env w name = some p) :
    Looks env w name (.found (fetch p w).1, (fetch p w).2)
  | unseen {out : Lookup × Walk} (hl : w.store.lookupLocal? w.frame.scope name = none)
      (h : seen? env w name = none)
      (hm : Misses env w name out) : Looks env w name out

theorem looks_lookup (env : WalkEnv) (w : Walk) (name : String) :
    Looks env w name (lookup env name w) := by
  simp only [lookup, bind_apply, get_apply]
  cases hl : w.store.lookupLocal? w.frame.scope name with
  | some id => exact .bound hl
  | none =>
    cases hg : w.frame.globals.get? name with
    | some id => exact .seen (p := .table id) hl (by simp [seen?, hg])
    | none =>
      cases hr : w.tables.rootGlobals.get? name with
      | some id => exact .seen (p := .table id) hl (by simp [seen?, hg, hr])
      | none =>
        cases hfr : env.firstPass.rootGlobal? name with
        | some found => exact .seen (p := .file found) hl (by simp [seen?, hg, hr, hfr])
        | none =>
          simp only [importFound, bind_apply, pure_apply, visibleGlobal?_apply]
          cases hv : visible? env w name with
          | some p => exact .seen hl (by simp [seen?, hg, hr, hfr, hv])
          | none => exact .unseen hl (by simp [seen?, hg, hr, hfr, hv]) misses_lookupUndefined

theorem Looks.soundless (h : Looks env w name out) : Soundless env w out.2 := by
  cases h with
  | bound => exact .refl w
  | seen _ h => exact (provides_seen? h).soundless
  | unseen _ _ hm =>
    cases hm with
    | builtin | lost => exact .refl w
    | waits _ _ hf => exact soundless_importFrom (defines_unfinishedDefinition? hf).mem

theorem silent_lookup (env : WalkEnv) (name : String) : Silent env (lookup env name) :=
  fun w => (looks_lookup env w name).soundless

theorem Looks.eq_unresolved_iff (h : Looks env w name out) :
    out.1 = .unresolved ↔ w.store.lookupLocal? w.frame.scope name = none ∧
    resolves env w name = false := by
  have hknown := isSome_seen? env w name
  cases h with
  | bound h => simp [h]
  | seen hl h => simp [resolves, ← hknown, h]
  | unseen hl h hm =>
    rw [h] at hknown
    cases hm with
    | builtin hb =>
      have hresolves : resolves env w name = true := by
        rw [resolves, Bool.or_assoc (isKnown env w name), hb]
        simp
      simp [hresolves]
    | lost hb hlost =>
      by_cases hp : env.pass = .project
      · simp [resolves, ← hknown, hl, hb, hlost hp]
      · simp [resolves, ← hknown, hl, hb, hp]
    | waits hb hp hf hres =>
      subst hres
      dsimp only
      split <;> simp [resolves, hp, hf]

theorem Looks.earlyUse?_read (h : Looks env w name out) (range : TextRange) (exempt : Bool) :
    earlyUse? env w (.read name range (w.store.bindingAt? w.frame.scope name) exempt out.2.isTop) =
      if exempt then none else out.1.origin?.map (earlyDiagnostic w.frame.path (name, range)) := by
  have hread : ∀ top, earlyUse? env w (.read name range none exempt top) =
      if exempt then none else (if top then awaited? env w name else none).map
      (earlyDiagnostic w.frame.path (name, range)) := by
    intro top
    cases exempt <;> cases top <;> rfl
  have hknown := isSome_seen? env w name
  cases h with
  | bound h =>
    rw [Store.bindingAt?, h]
    cases exempt <;> rfl
  | seen hl h =>
    rw [Store.bindingAt?, hl, Option.map_none, hread, awaited?, ← hknown, h]
    simp [Lookup.origin?]
  | unseen hl h hm =>
    rw [Store.bindingAt?, hl, Option.map_none, hread]
    congr 2
    rw [h] at hknown
    cases hm with
    | builtin hb => simp_all [awaited?, Lookup.origin?]
    | lost hb hlost =>
      by_cases hp : env.pass = .project
      · simp [awaited?, hlost hp, Lookup.origin?]
      · simp [awaited?, hp, Lookup.origin?]
    | waits hb hp hf hres =>
      subst hres
      rw [awaited?, ← hknown, hf]
      cases (importFrom _ w).2.isTop <;> simp_all [Lookup.origin?]

/-! ## Reading -/

variable (env)

theorem isLoadCycle_earlyDiagnostic (path : String) (u : String × TextRange)
    (origin : RelatedPlace) : (earlyDiagnostic path u origin).isLoadCycle = false := by
  simp [Diagnostic.isLoadCycle, earlyDiagnostic, toString, List.isPrefixOf]

theorem Step.of_findings {d : Diagnostic} {uses : OrderedMap String (List TextRange)}
    (hn : e.load? = none) (hg : e.globalKey? = none) (hr : e.rootKey? = none)
    (huses : uses = noteUse w.frame.undefined (lostUse? env w e))
    (hundefined : [d].filter (·.kind == .undefinedGlobal) =
      (lostUse? env w e).toList.map (undefinedDiagnostic w.frame.path))
    (hearly : [d].filter Diagnostic.isEarlyUse = (earlyUse? env w e).toList)
    (hcycle : d.isLoadCycle = false) (hjump : d.kind ≠ .unknownGotoLabel) :
    Step env e w (withFindings [d] { w with frame := { w.frame with undefined := uses } }) where
  isName := hn
  store := .refl
  functions := .refl
  marked _ := rfl
  place := rfl
  course := by
    rw [Walk.course, Nameless.filter_withFindings (by simpa using hcycle)]
    rfl
  jumpFindings := Nameless.filter_withFindings (by simpa using hjump)
  globals := by rw [hg]; rfl
  rootGlobals := by rw [hr]; rfl
  sharedGlobals _ hn := .inl hn
  sharedRootGlobals _ hn := .inl hn
  undefined := huses
  undefinedFindings := by rw [← hundefined]; exact filter_findings
  earlyFindings := by rw [← hearly]; exact filter_findings
  enters _ := .nothing hg rfl rfl

theorem step_reportEarly {origin : RelatedPlace}
    (he : earlyUse? env w e = some (earlyDiagnostic w.frame.path (name, range) origin))
    (hu : lostUse? env w e = none) (hn : e.load? = none) (hg : e.globalKey? = none)
    (hr : e.rootKey? = none) :
    Step env e w (report .loadOrder s!"global '{name}' is used before its definition has run" range
      [origin] w).2 := by
  have hcycle := isLoadCycle_earlyDiagnostic w.frame.path (name, range) origin
  have hkind : (earlyDiagnostic w.frame.path (name, range) origin).isEarlyUse = true := by
    rw [Diagnostic.isEarlyUse, hcycle]
    rfl
  rw [report_apply]
  exact .of_findings env (d := earlyDiagnostic w.frame.path (name, range) origin) hn hg hr
    (by rw [hu]; rfl)
    (by rw [hu]; rfl) (by simp [he, hkind]) hcycle (by simp [earlyDiagnostic])

theorem step_readUndefined (hu : lostUse? env w e = some (name, range))
    (he : earlyUse? env w e = none) (hn : e.load? = none) (hg : e.globalKey? = none)
    (hr : e.rootKey? = none) : Step env e w (readUndefined name range w).2 := by
  rw [readUndefined, bind_apply, report_apply]
  exact .of_findings env (d := undefinedDiagnostic w.frame.path (name, range)) hn hg hr
    (by rw [hu]; rfl)
    (by rw [hu]; rfl) (by rw [he]; rfl) rfl (by simp [undefinedDiagnostic])

theorem lostUse?_of_resolves (hr : resolves env w name = true) {b : Option DeclKey}
    {exempt top : Bool} : lostUse? env w (.read name range b exempt top) = none := by
  cases b <;> cases exempt <;> simp [lostUse?, Event.freeUse?, hr]

theorem step_readName :
    Step env (.read name range (w.store.bindingAt? w.frame.scope name)
      (w.frame.selfTarget == some name)
      (lookup env name w).2.isTop) w (readName env name range w).2 := by
  have hstill := (silent_lookup env name).still w
  have hun := (looks_lookup env w name).eq_unresolved_iff
  have hbound := w.store.isSome_bindingAt? w.frame.scope name
  have hearly := (looks_lookup env w name).earlyUse?_read range (w.frame.selfTarget == some name)
  have htarget := part_eq hstill.place Frame.selfTarget
  rw [readName, bind_apply]
  generalize lookup env name w = out at *
  obtain ⟨res, w₁⟩ := out
  dsimp only at *
  generalize w₁.isTop = top at *
  -- Unless the name is lost, what follows the lookup notices nothing.
  have hknown : res ≠ .unresolved →
      lostUse? env w (.read name range (w.store.bindingAt? w.frame.scope name)
        (w.frame.selfTarget == some name) top) =
        none := by
    intro hne
    cases hl : w.store.lookupLocal? w.frame.scope name with
    | some id =>
      rw [hl] at hbound
      obtain ⟨k, hk⟩ := Option.isSome_iff_exists.1 hbound
      rw [hk]
      rfl
    | none =>
      refine lostUse?_of_resolves env ?_
      rw [← Bool.not_eq_false]
      exact fun hr => hne (hun.2 ⟨hl, hr⟩)
  have hrest : ∀ id, Calm env (do notify name range .read id; ask (·.infoOf id)) := fun id =>
    .bind_silent (calm_notify env) fun _ => .ask
  cases res with
  | found id =>
    refine .of_still (hstill.trans ((?_ : Calm env _) _)) rfl rfl rfl (hknown (by simp))
      (hearly.trans (ite_self _))
    exact .bind (.of_silent (silent_modifyVariable env fun _ => rfl)) fun _ => hrest id
  | tooEarly id origin =>
    have hnone := hknown (by simp)
    dsimp only
    rw [bind_apply, frame_apply, htarget]
    split
    · rename_i hx
      rw [if_neg (by simpa using hx)] at hearly
      rw [bind_apply]
      refine (Step.of_still_trans hstill (step_reportEarly env ?_ ?_ rfl rfl rfl)).trans_still
        (hrest id _)
      · rw [hstill.earlyUse?_eq, hearly, hstill.path]
        rfl
      · rw [hstill.lostUse?_eq, hnone]
    · rename_i hx
      rw [if_pos (by simpa using hx)] at hearly
      exact .of_still (hstill.trans (hrest id _)) rfl rfl rfl hnone hearly
  | builtin =>
    refine .of_still (hstill.trans ((?_ : Calm env _) _)) rfl rfl rfl (hknown (by simp))
      (hearly.trans (ite_self _))
    exact .bind_silent (calm_notifyUnbound env _ _ _) fun _ => .pure
  | unresolved =>
    obtain ⟨hl, hr⟩ := hun.1 rfl
    have hb : w.store.bindingAt? w.frame.scope name = none := by
      simpa [hl] using hbound
    have hstill' := hstill.trans (calm_notifyUnbound env name range .unresolved w₁)
    have htarget' := part_eq hstill'.place Frame.selfTarget
    have hearly' := hearly.trans (ite_self _)
    rw [hb] at hearly' ⊢
    dsimp only
    rw [bind_apply, bind_apply]
    split
    · rename_i hx
      have hx' : w.frame.selfTarget ≠ some name := fun h => hx (htarget'.trans h)
      rw [beq_eq_false_iff_ne.2 hx'] at hearly' ⊢
      refine .of_still_trans hstill' (step_readUndefined env ?_ ?_ rfl rfl rfl)
      · rw [hstill'.lostUse?_eq]
        simp [lostUse?, Event.freeUse?, hr]
      · rw [hstill'.earlyUse?_eq, hearly']
    · rename_i hx
      have hx' : w.frame.selfTarget = some name := htarget'.symm.trans (Decidable.of_not_not hx)
      rw [beq_iff_eq.2 hx'] at hearly' ⊢
      exact .of_still hstill' rfl rfl rfl rfl hearly'

/-! ## Writing -/

variable {env}

variable {e : Event} {range : TextRange} {role : NameRole} {id : VariableId} {isNew : Bool}
  {w' : Walk}

/-- The state after a write has entered the variable `id` into the tables of the file, and a new one
into the shared tables of a walk from entry files. -/
def entered (env : WalkEnv) (e : Event) (id : VariableId) (isNew : Bool) (w : Walk) : Walk :=
  let own := w.names.own.enter e id
  let shared := w.names.shared.enter e id
  { w with
    tables := match isNew with
      | true =>
        if env.pass = .project then
          { w.tables with globals := shared.globals, rootGlobals := shared.rootGlobals }
        else w.tables
      | false => w.tables
    frame := { w.frame with globals := own.globals, rootGlobals := own.rootGlobals } }

theorem tables_entered (env : WalkEnv) (e : Event) (id : VariableId) (isNew : Bool) (w : Walk) :
    (entered env e id isNew w).tables = w.tables ∨ env.pass = .project ∧
    (entered env e id isNew w).tables =
      { w.tables with
        globals := (w.names.shared.enter e id).globals, rootGlobals :=
          (w.names.shared.enter e id).rootGlobals } := by
  unfold entered
  cases isNew with
  | false => exact .inl rfl
  | true =>
    dsimp only
    split
    · next hp => exact .inr ⟨hp, rfl⟩
    · exact .inl rfl

/-- The variable `id` has been entered into the tables and announced. -/
def Enrolls (env : WalkEnv) (e : Event) (name : String) (range : TextRange) (role : NameRole)
    (id : VariableId) (isNew : Bool) (w w' : Walk) : Prop :=
  ∃ w₁ w₂, Soundless env w w₁ ∧ Soundless env (entered env e id isNew w₁) w₂ ∧
    Soundless env (notify name range role id w₂).2 w'

/-- What a write of a name does that no local binds: it goes to the variable that is known for the
name, or to a new one. -/
inductive Writes (env : WalkEnv) (e : Event) (name : String) (range : TextRange) (w : Walk) :
    Walk → Prop
  | known {p : Provider} {w' : Walk} (hp : known? env w e = some p)
      (h : Enrolls env e name range .write (fetch p w).1 false (fetch p w).2 w') :
      Writes env e name range w w'
  | new {v : Variable} {w₁ w' : Walk} (hnone : known? env w e = none) (hw : Soundless env w w₁)
      (hscope : v.scope = none)
      (hkey : v.key = ⟨w.frame.file, range⟩) (hroot : v.flags.rootNamespace = e.isRoot)
      (h : Enrolls env e name range .declaration (add (·.addVariable v) w₁).1 true
        (add (·.addVariable v) w₁).2 w') :
    Writes env e name range w w'

theorem soundless_assignLocal :
    ∃ w₁, Soundless env w w₁ ∧
      (assignLocal id name range info statement w).2 = (notify name range .write id w₁).2 := by
  refine ⟨_, (?_ : Silent env (do
    checkWrite id name range info
    changeStore (·.modifyVariable id fun v =>
      if v.flags.used then v else { v with assignSites := v.assignSites ++ [statement] })
    changeStore (·.reassign id info)
    let scope := (← frame).scope
    changeStore (·.clearNarrowing scope name)
    bindReference info .toLocal)) w, rfl⟩
  refine .bind reports_checkWrite.silent fun _ =>
    .bind (silent_modifyVariable env fun v => ?_) fun _ =>
    .bind (silent_reassign env) fun _ => .bind .frame fun _ =>
    .bind (silent_clearNarrowing env) fun _ =>
      silent_bindReference env _ _
  split <;> rfl

theorem enrolls_assignGlobal :
    Enrolls env (.write name range none) name range .write id false w ((do
      assignGlobal id name range info
      bindReference info .toGlobal : WalkM Unit) w).2 := by
  refine ⟨_, _, (?_ : Silent env (do
    checkWrite id name range info
    changeStore (·.reassign id info)
    let scope := (← frame).scope
    changeStore (·.clearNarrowing scope name))) w, .refl _,
    silent_bindReference env info .toGlobal _⟩
  exact .bind reports_checkWrite.silent fun _ => .bind (silent_reassign env) fun _ =>
    .bind .frame fun _ =>
    silent_clearNarrowing env

theorem variableFrom_core {s : Store} {file : FileId} :
    (s.variableFrom name file range info).scope = none ∧
    (s.variableFrom name file range info).key = ⟨file, range⟩ ∧
      (s.variableFrom name file range info).flags.rootNamespace = false := by
  unfold Store.variableFrom
  split <;> exact ⟨rfl, rfl, rfl⟩

theorem writes_defineGlobal (hnone : known? env w (.write name range none) = none) :
    Writes env (.write name range none) name range w ((do
      defineGlobal env name range info statement
      bindReference info .toGlobal : WalkM Unit) w).2 := by
  obtain ⟨hscope, hkey, hroot⟩ := variableFrom_core
  have hown : w.frame.globals.get? name = none := by simpa using (Option.or_eq_none_iff.1 hnone).1
  have hdefine : ∀ (v : Variable) (w₁ : Walk), Soundless env w w₁ → v.scope = none →
    v.key = ⟨w.frame.file, range⟩ →
      v.flags.rootNamespace = false → Writes env (.write name range none) name range w ((do
        let id ← add (·.addVariable v)
        changeFrame fun f => { f with globals := f.globals.insert name id }
        changeTables env (·.defineGlobal name id)
        notify name range .declaration id
        bindReference info .toGlobal : WalkM Unit) w₁).2 := by
    intro v w₁ hw hscope hkey hroot
    refine .new hnone hw hscope hkey hroot ⟨_, _, .refl _, .refl _, ?_⟩
    have hown' : (add (·.addVariable v) w₁).2.frame.globals.get? name = none :=
      (congrArg (·.get? name) hw.globals).trans hown
    simp only [bind_apply, changeFrame_apply, changeTables_apply, entered, NameTables.own,
      GlobalTables.enter, Walk.names, OrderedMap.insertIfNew_of_get?_eq_none hown']
    exact silent_bindReference env info .toGlobal _
  rw [defineGlobal]
  simp only [bind_assoc]
  rw [bind_apply, frame_apply, bind_apply, ask_apply]
  cases w.frame.annotations.declaredType? statement.start.line with
  | some expected => exact hdefine _ _ (reports_checkAssignedType.silent w) hscope hkey hroot
  | none => exact hdefine _ _ (.refl w) hscope hkey hroot

theorem writes_assignName (hl : w.store.lookupLocal? w.frame.scope name = none) (range : TextRange)
    (info : ValueInfo) (statement : TextRange) : Writes env (.write name range none) name range w
      (assignName env name range info statement w).2 := by
  rw [assignName, bind_apply, frame_apply, bind_apply, ask_apply, hl]
  dsimp only
  rw [bind_apply, knownGlobal?_apply env name w range]
  cases hk : known? env w (.write name range none) with
  | some p => exact .known hk enrolls_assignGlobal
  | none => exact writes_defineGlobal hk

theorem writes_assignRootGlobal :
    Writes env (.writeRoot name range) name range w (assignRootGlobal env name range info w).2 := by
  have hbind := fun w => silent_bindReference env info .toGlobal w
  rw [assignRootGlobal, bind_apply, knownRootGlobal?_apply env name w range]
  cases hk : known? env w (.writeRoot name range) with
  | some p => exact .known hk ⟨_, _, silent_reassign env _, hbind _, .refl _⟩
  | none =>
    obtain ⟨hscope, hkey, hroot⟩ := variableFrom_core
    simp only [fetch?, bind_apply, pure_apply, frame_apply, ask_apply, changeTables_apply,
      changeFrame_apply]
    refine .new
      (v := { w.store.variableFrom name w.frame.file range info with flags.rootNamespace := true })
      hk (.refl w) hscope hkey rfl ⟨_, _, .refl _, hbind _, .refl _⟩

theorem keys_enter (t : GlobalTables) (e : Event) (id : VariableId) :
    (t.enter e id).globals.keys = noteKey t.globals.keys e.globalKey? ∧
      (t.enter e id).rootGlobals.keys = noteKey t.rootGlobals.keys e.rootKey? := by
  unfold GlobalTables.enter
  split
  · exact ⟨OrderedMap.keys_insertIfNew .., rfl⟩
  · exact ⟨OrderedMap.keys_insertIfNew .., OrderedMap.keys_insertIfNew ..⟩
  · next hwrite hroot =>
    have hkeys : e.globalKey? = none ∧ e.rootKey? = none := by
      rcases e with _ | ⟨_, _, _ | _⟩ | _ | _
      all_goals
        first | exact ⟨rfl, rfl⟩ | exact absurd rfl (hwrite _ _) | exact absurd rfl (hroot _ _)
    rw [hkeys.1, hkeys.2]
    exact ⟨rfl, rfl⟩

/-- Where writes go to the variables of the walk alone, `id` is the variable that the tables lead a
write to, or a new one. -/
inductive Leads (env : WalkEnv) (e : Event) (w : Walk) (id : VariableId) : Bool → Prop
  | known (h : w.names.target? env.pass e = some id) : Leads env e w id false
  | new (h : w.names.target? env.pass e = none) (hid : w.store.Holds id e.isRoot) :
      Leads env e w id true

theorem Leads.still (h : Leads env e w id isNew) (hs : Still env w w') :
    Leads env e w' id isNew := by
  cases h with
  | known h => exact .known (hs.names ▸ h)
  | new h hid => exact .new (hs.names ▸ h) (hid.of_grows hs.store.vars)

theorem step_entered (hkey : e.globalKey? = some name)
    (hid : env.pass.IsDirect → Leads env e w id isNew) :
    Step env e w (entered env e id isNew w) := by
  have hown := keys_enter w.names.own e id
  have hshared := keys_enter w.names.shared e id
  obtain ⟨hload, hfree, htop⟩ : e.load? = none ∧ e.freeUse? = none ∧ e.topUse? = none := by
    rcases e with _ | _ | _ | _
    all_goals first | exact ⟨rfl, rfl, rfl⟩ | cases hkey
  have htables := tables_entered env e id isNew w
  have hfiles : (entered env e id isNew w).tables.files = w.tables.files := by
    rcases htables with h | ⟨-, h⟩ <;> rw [h]
  exact
    { isName := hload
      store := .refl
      functions := .refl
      marked := fun _ => rfl
      place := rfl
      course := congrArg (fun files => { w.course with files }) hfiles
      jumpFindings := rfl
      globals := hown.1
      rootGlobals := hown.2
      sharedGlobals := fun n hn => by
        rcases htables with h | ⟨-, h⟩ <;> rw [h] at hn
        · exact .inl hn
        · exact (mem_noteKey_iff ..).1 (hshared.1 ▸ hn)
      sharedRootGlobals := fun n hn => by
        rcases htables with h | ⟨-, h⟩ <;> rw [h] at hn
        · exact .inl hn
        · exact (mem_noteKey_iff ..).1 (hshared.2 ▸ hn)
      undefined := by simp [lostUse?, hfree, noteUse, entered]
      undefinedFindings := by simp [lostUse?, hfree, Walk.names, entered]
      earlyFindings := by simp [earlyUse?, htop, Walk.names, entered]
      enters := fun hp => by
        cases hid hp with
        | known h => exact .known h rfl rfl
        | new h hholds =>
          refine .new h hholds rfl ?_
          simp only [entered]
          split <;> rfl }

theorem Enrolls.step (h : Enrolls env e name range role id isNew w w')
    (hkey : e.globalKey? = some name) (hid : env.pass.IsDirect → Leads env e w id isNew) :
    Step env e w w' := by
  obtain ⟨w₁, w₂, hbefore, hafter, hlast⟩ := h
  have hstep : Step env e w (entered env e id isNew w₁) :=
    .of_still_trans hbefore.toStill (step_entered hkey fun hp => (hid hp).still hbefore.toStill)
  exact hstep.trans_still (hafter.toStill.trans ((calm_notify env w₂).trans hlast.toStill))

theorem Writes.step (h : Writes env e name range w w') (hkey : e.globalKey? = some name) :
    Step env e w w' := by
  cases h with
  | known hp h =>
    have hs := (provides_known? hkey hp).soundless.toStill
    refine .of_still_trans hs (h.step hkey fun hdirect => ?_)
    rw [known?_eq_target? hdirect] at hp
    obtain ⟨id, hid, rfl⟩ := Option.map_eq_some_iff.1 hp
    exact .known hid
  | @new v w₁ _ hnone hw hscope hk hroot h =>
    have hs := hw.toStill.trans (silent_addVariable env v w₁).toStill
    refine .of_still_trans hs
      (h.step hkey fun hdirect => .new ?_ (hroot ▸ w₁.store.holds_addVariable))
    rw [known?_eq_target? hdirect] at hnone
    rw [hs.names]
    exact Option.map_eq_none_iff.1 hnone

variable (env)

theorem step_assignName :
    Step env (.write name range (w.store.bindingAt? w.frame.scope name)) w
      (assignName env name range info statement w).2 := by
  unfold Store.bindingAt?
  cases hl : w.store.lookupLocal? w.frame.scope name with
  | some id =>
    obtain ⟨w₁, hw₁, heq⟩ := soundless_assignLocal
    rw [assignName, bind_apply, frame_apply, bind_apply, ask_apply, hl]
    dsimp only
    rw [heq]
    exact .of_still (hw₁.toStill.trans (calm_notify env w₁)) rfl rfl rfl rfl rfl
  | none => exact (writes_assignName hl range info statement).step rfl

theorem step_assignRootGlobal :
    Step env (.writeRoot name range) w (assignRootGlobal env name range info w).2 :=
  writes_assignRootGlobal.step rfl

end WalkM

end LuaAnalysis
