import LuaAnalysis.Proofs.Symbol.Import
import LuaAnalysis.Walk.FunctionBody

/-!
# Steps that no other file notices

Most of what a walk does at a node concerns the node alone: it asks the store, notes what it learns
about values, and reports findings of one file. `Still` is the relation between the states before
and after such steps. What it keeps fixed is split by what changes it: the names of a walk by reads
and writes (`Walk.names`), its course by loads (`Walk.course`).
-/

namespace LuaAnalysis

open List Store

/-! ## Running a walk -/

variable {w : Walk} {range : TextRange}
variable {env : WalkEnv} {info : ValueInfo} {name : String} {infos : List ValueInfo}
  {ds : List Diagnostic}
  {p : Diagnostic → Bool}

namespace WalkM

variable {α β : Type}

theorem bind_apply {m : WalkM α} {f : α → WalkM β} : (m >>= f) w = f (m w).1 (m w).2 := rfl

theorem pure_apply {a : α} : (pure a : WalkM α) w = (a, w) := rfl

theorem map_apply {f : α → β} {m : WalkM α} : (f <$> m) w = (f (m w).1, (m w).2) := rfl

theorem get_apply : (get : WalkM Walk) w = (w, w) := rfl

theorem ask_apply {f : Store → α} : ask f w = (f w.store, w) := rfl

theorem frame_apply : frame w = (w.frame, w) := rfl

theorem changeFrame_apply {f : Frame → Frame} :
    changeFrame f w = ((), { w with frame := f w.frame }) := rfl

theorem changeTables_apply {f : ProjectTables → ProjectTables} :
    changeTables env f w =
      ((), { w with tables := if env.pass = .project then f w.tables else w.tables }) := by
  rw [changeTables]
  split <;> rfl

/-- Reports findings: those that the gate of the file admits are added. -/
def withFindings (ds : List Diagnostic) (w : Walk) : Walk :=
  { w with frame :=
    { w.frame with findings := w.frame.findings ++ (ds.filter w.frame.gate.admits).toArray } }

theorem withFindings_append {ds' : List Diagnostic} :
    withFindings ds' (withFindings ds w) = withFindings (ds ++ ds') w := by
  simp [withFindings, Array.append_assoc]

theorem changeFrame_accept {d : Frame → Diagnostic} :
    changeFrame (fun f => f.accept (d f)) w = ((), withFindings [d w.frame] w) := by
  rw [changeFrame_apply, Frame.accept]
  split <;> simp [withFindings, *]

theorem filter_findings : (withFindings ds w).frame.findings.toList.filter p =
    w.frame.findings.toList.filter p ++ (ds.filter p).filter w.frame.gate.admits := by
  simp [withFindings, Bool.and_comm]

/-- Findings of kinds that the pass does not look for are not added. -/
theorem withFindings_unchecked (h : ∀ d ∈ ds, w.frame.gate.checks d.kind = false) :
    withFindings ds w = w := by
  have hnone : ds.filter w.frame.gate.admits = [] :=
    filter_eq_nil_iff.2 fun d hd => by simp [Gate.admits, h d hd]
  simp [withFindings, hnone]

end WalkM

/-! ## Views of the state -/

def Diagnostic.isLoadCycle (d : Diagnostic) : Bool :=
  d.kind == .loadOrder && "circular load".toList.isPrefixOf d.message.toList

/-- Whether a diagnostic is about a global that is read before the code that defines it has run. -/
def Diagnostic.isEarlyUse (d : Diagnostic) : Bool :=
  d.kind == .loadOrder && !d.isLoadCycle

/-- The kinds of findings that are followed through a whole walk: about names, loads and jumps. -/
def Kind.isWatched (k : Kind) : Bool :=
  k == .undefinedGlobal || k == .loadOrder || k == .unknownGotoLabel

/-- Where a walk is, without what it has found. -/
def Frame.place (f : Frame) : Frame :=
  { f with globals := {}, rootGlobals := {}, undefined := {}, references := [], findings := #[] }

/-- What only loads change. -/
structure Course where
  phase : PhaseTracker
  loadSites : List LoadSite
  loaded : OrderedMap (FileId × LoadKind) (Option VariableId)
  files : OrderedMap FileId FileResult
  file : FileId
  path : String
  gate : Gate
  references : List ReferenceId
  cycles : List Diagnostic

/-- What reads and writes of names change. -/
structure NameTables where
  globals : OrderedMap String VariableId
  rootGlobals : OrderedMap String VariableId
  sharedGlobals : OrderedMap String VariableId
  sharedRootGlobals : OrderedMap String VariableId
  undefined : OrderedMap String (List TextRange)
  undefinedFindings : List Diagnostic
  /-- About globals that are read too early. -/
  earlyFindings : List Diagnostic

namespace Walk

def course (w : Walk) : Course where
  phase := w.phase
  loadSites := w.loadSites
  loaded := w.loaded
  files := w.tables.files
  file := w.frame.file
  path := w.frame.path
  gate := w.frame.gate
  references := w.frame.references
  cycles := w.frame.findings.toList.filter Diagnostic.isLoadCycle

def names (w : Walk) : NameTables where
  globals := w.frame.globals
  rootGlobals := w.frame.rootGlobals
  sharedGlobals := w.tables.globals
  sharedRootGlobals := w.tables.rootGlobals
  undefined := w.frame.undefined
  undefinedFindings := w.frame.findings.toList.filter (·.kind == .undefinedGlobal)
  earlyFindings := w.frame.findings.toList.filter Diagnostic.isEarlyUse

def isTop (w : Walk) : Bool :=
  (w.store.functionAt w.frame.function).depth == 0

def jumpFindings (w : Walk) : List Diagnostic :=
  w.frame.findings.toList.filter (·.kind == .unknownGotoLabel)

end Walk

/-- No walk of a file alone has marked a reference. -/
def FirstPass.Unmarked (p : FirstPass) : Prop :=
  ∀ a ∈ p.analyses, a.store.marked = []

/-- The copies that a store has made of what the walks of files alone found are like the
originals. -/
structure FirstPass.MirroredIn (p : FirstPass) (s : Store) : Prop where
  distinct : ∀ a ∈ p.analyses, ∀ b ∈ p.analyses, a.result.file = b.result.file → a = b
  mirrors : ∀ a ∈ p.analyses, s.Mirrors a.store a.result.file

namespace FirstPass.MirroredIn

variable {p : FirstPass} {s s' : Store}

theorem of_grows (h : p.MirroredIn s) (hv : Grows Variable.core s.vars s'.vars)
    (hi : s'.importedVariables = s.importedVariables) : p.MirroredIn s' :=
  ⟨h.distinct, fun a ha => (h.mirrors a ha).of_grows hv hi⟩

theorem of_copiesFrom {a : FileAnalysis} (h : p.MirroredIn s) (ha : a ∈ p.analyses)
    (hc : Store.CopiesFrom a.store a.result.file s s') : p.MirroredIn s' := by
  refine ⟨h.distinct, fun b hb => hc.mirrors b.store b.result.file (fun heq => ?_) (h.mirrors b hb)⟩
  rw [h.distinct b hb a ha heq]

end FirstPass.MirroredIn

/-! ## Steps without an effect on other files -/

/-- The walk has gone on in its file; the scopes in `free` may have got locals and children. -/
structure GoesOn (env : WalkEnv) (free : ScopeId → Prop) (w w' : Walk) : Prop where
  store : Store.Within free w.store w'.store
  marked : env.firstPass.Unmarked → w'.store.marked = w.store.marked
  course : w'.course = w.course

namespace GoesOn

variable {env : WalkEnv} {free : ScopeId → Prop} {w w' w'' : Walk}

theorem refl : GoesOn env free w w :=
  ⟨.refl, fun _ => rfl, rfl⟩

theorem trans (h : GoesOn env free w w') (h' : GoesOn env free w' w'') : GoesOn env free w w'' :=
  ⟨h.store.trans h'.store, fun hu => (h'.marked hu).trans (h.marked hu), h'.course.trans h.course⟩

section

variable (h : GoesOn env free w w')
include h

theorem active : w'.phase.active = w.phase.active :=
  congrArg (fun c => c.phase.active) h.course

theorem loadSites : w'.loadSites = w.loadSites :=
  congrArg Course.loadSites h.course

theorem loaded : w'.loaded = w.loaded :=
  congrArg Course.loaded h.course

theorem files : w'.tables.files = w.tables.files :=
  congrArg Course.files h.course

theorem references : w'.frame.references = w.frame.references :=
  congrArg Course.references h.course

theorem path : w'.frame.path = w.frame.path :=
  congrArg Course.path h.course

theorem gate : w'.frame.gate = w.frame.gate :=
  congrArg Course.gate h.course

end

end GoesOn

/-- The walk has gone on without a name. -/
structure Nameless (env : WalkEnv) (free : ScopeId → Prop) (w w' : Walk) : Prop
    extends GoesOn env free w w' where
  names : w'.names = w.names

namespace Nameless

variable {env : WalkEnv} {free : ScopeId → Prop} {w w' w'' : Walk}

theorem trans (h : Nameless env free w w') (h' : Nameless env free w' w'') :
    Nameless env free w w'' :=
  ⟨h.toGoesOn.trans h'.toGoesOn, h'.names.trans h.names⟩

section

variable (h : Nameless env free w w')
include h

theorem globals : w'.frame.globals = w.frame.globals :=
  congrArg NameTables.globals h.names

theorem rootGlobals : w'.frame.rootGlobals = w.frame.rootGlobals :=
  congrArg NameTables.rootGlobals h.names

theorem sharedGlobals : w'.tables.globals = w.tables.globals :=
  congrArg NameTables.sharedGlobals h.names

theorem sharedRootGlobals : w'.tables.rootGlobals = w.tables.rootGlobals :=
  congrArg NameTables.sharedRootGlobals h.names

theorem undefined : w'.frame.undefined = w.frame.undefined :=
  congrArg NameTables.undefined h.names

end

theorem filter_withFindings (h : ∀ d ∈ ds, p d = false) :
    (WalkM.withFindings ds w).frame.findings.toList.filter p =
      w.frame.findings.toList.filter p := by
  have hnone : ds.filter p = [] := filter_eq_nil_iff.2 fun d hd => by simp [h d hd]
  rw [WalkM.filter_findings, hnone, filter_nil, append_nil]

theorem of_findings (h : ∀ d ∈ ds, d.kind ≠ .undefinedGlobal ∧ d.kind ≠ .loadOrder) :
    Nameless env free w (WalkM.withFindings ds w) where
  store := .refl
  marked _ := rfl
  course := by
    rw [Walk.course, filter_withFindings fun d hd => by simp [Diagnostic.isLoadCycle, (h d hd).2]]
    rfl
  names := by
    rw [Walk.names, filter_withFindings fun d hd => by simp [(h d hd).1],
      filter_withFindings fun d hd => by simp [Diagnostic.isEarlyUse, (h d hd).2]]
    rfl

end Nameless

/-- Nothing has changed but values, uses, what conditions prove, occurrences and findings that are
not watched. -/
structure Still (env : WalkEnv) (w w' : Walk) : Prop
    extends Nameless env (fun _ => False) w w' where
  functions : Grows Function.jumps w.store.functions w'.store.functions
  place : w'.frame.place = w.frame.place
  jumpFindings : w'.jumpFindings = w.jumpFindings

namespace Still

variable {env : WalkEnv} {w w' w'' : Walk}

theorem refl : Still env w w :=
  ⟨⟨.refl, rfl⟩, .refl, rfl, rfl⟩

theorem trans (h : Still env w w') (h' : Still env w' w'') : Still env w w'' where
  toNameless := h.toNameless.trans h'.toNameless
  functions := h.functions.trans h'.functions
  place := h'.place.trans h.place
  jumpFindings := h'.jumpFindings.trans h.jumpFindings

end Still

/-- Still, and no name has been announced. -/
structure Soundless (env : WalkEnv) (w w' : Walk) : Prop extends Still env w w' where
  occurrences : w'.occurrences = w.occurrences
  copies : env.firstPass.MirroredIn w.store → env.firstPass.MirroredIn w'.store

namespace Soundless

variable {env : WalkEnv} {w w' w'' : Walk} {s : Store}

theorem refl (w : Walk) : Soundless env w w :=
  ⟨.refl, rfl, id⟩

theorem trans (h : Soundless env w w') (h' : Soundless env w' w'') : Soundless env w w'' :=
  ⟨h.toStill.trans h'.toStill, h'.occurrences.trans h.occurrences,
    fun hm => h'.copies (h.copies hm)⟩

theorem of_store (h : Store.Within (fun _ => False) w.store s)
    (hf : Grows Function.jumps w.store.functions s.functions)
    (hsize : s.references.size = w.store.references.size) (hi : s.importedVariables =
      w.store.importedVariables) : Soundless env w { w with store := s } :=
  ⟨⟨⟨⟨h, fun _ => h.marked_of_size_eq hsize, rfl⟩, rfl⟩, hf, rfl, rfl⟩, rfl,
    fun hm => hm.of_grows h.vars hi⟩

theorem of_findings (h : ∀ d ∈ ds, d.kind.isWatched = false) :
    Soundless env w (WalkM.withFindings ds w) := by
  simp only [Kind.isWatched, Bool.or_eq_false_iff, beq_eq_false_iff_ne, ne_eq] at h
  exact
    { toNameless := .of_findings fun d hd => (h d hd).1
      functions := .refl
      place := rfl
      jumpFindings := Nameless.filter_withFindings fun d hd => beq_eq_false_iff_ne.2 (h d hd).2
      occurrences := rfl
      copies := id }

end Soundless

variable {m : WalkM α} {f : α → WalkM β}

namespace WalkM

/-- A step that is still wherever it starts, but may announce names. -/
def Calm (env : WalkEnv) (m : WalkM α) : Prop :=
  ∀ w, Still env w (m w).2

/-- A step that is soundless wherever it starts. -/
def Silent (env : WalkEnv) (m : WalkM α) : Prop :=
  ∀ w, Soundless env w (m w).2

variable {α β : Type} (env : WalkEnv)

namespace Silent

variable {env}

theorem still (h : Silent env m) (w : Walk) : Still env w (m w).2 := (h w).toStill

theorem pure {a : α} : Silent env (pure a : WalkM α) := Soundless.refl

theorem bind (hm : Silent env m) (hf : ∀ a, Silent env (f a)) : Silent env (m >>= f) :=
  fun w => (hm w).trans (hf (m w).1 (m w).2)

theorem ask {f : Store → α} : Silent env (ask f) := Soundless.refl

theorem frame : Silent env frame := Soundless.refl

theorem ite {c : Prop} [Decidable c] {m m' : WalkM α} (h : Silent env m) (h' : Silent env m') :
    Silent env (if c then m else m') := by
  split
  · exact h
  · exact h'

end Silent

namespace Calm

variable {env}

theorem of_silent (h : Silent env m) : Calm env m := h.still

theorem bind (hm : Calm env m) (hf : ∀ a, Calm env (f a)) : Calm env (m >>= f) :=
  fun w => (hm w).trans (hf (m w).1 (m w).2)

theorem bind_silent (hm : Calm env m) (hf : ∀ a, Silent env (f a)) : Calm env (m >>= f) :=
  bind hm fun a => of_silent (hf a)

end Calm

/-! ## Changes of the store -/

theorem silent_changeStore {f : Store → Store} (h : ∀ s, Store.Within (fun _ => False) s (f s))
    (hf : ∀ s : Store, Grows Function.jumps s.functions (f s).functions)
    (hsize : ∀ s : Store, (f s).references.size = s.references.size)
    (hi : ∀ s : Store, (f s).importedVariables = s.importedVariables) :
    Silent env (changeStore f) :=
  fun w => .of_store (h w.store) (hf w.store) (hsize w.store) (hi w.store)

variable {id : VariableId} {scope : ScopeId} {role : NameRole} {args : List Exp}

theorem silent_modifyVariable {f : Variable → Variable} (hf : ∀ v, (f v).core = v.core) :
    Silent env (changeStore (·.modifyVariable id f)) :=
  silent_changeStore env (fun s => within_modifyVariable _ s hf) (fun _ => .refl) (fun _ => rfl)
    fun _ => rfl

theorem silent_modifyFunction {id : FunctionId} {f : Function → Function}
    (hf : ∀ x, (f x).jumps = x.jumps) : Silent env (changeStore (·.modifyFunction id f)) :=
  silent_changeStore env (fun s => within_modifyFunction _ s fun x => part_eq (hf x) Function.core)
    (fun s => .modify _ _ hf) (fun _ => rfl) fun _ => rfl

theorem silent_modifyReference {id : ReferenceId} {f : Reference → Reference}
    (hf : ∀ r, (f r).core = r.core) : Silent env (changeStore (·.modifyReference id f)) :=
  silent_changeStore env (fun s => within_modifyReference _ s hf) (fun _ => .refl)
    (fun _ => Array.size_modify)
    fun _ => rfl

theorem silent_reassign : Silent env (changeStore (·.reassign id info)) :=
  silent_changeStore env (fun s => within_reassign _ s) (fun _ => .refl) (fun _ => rfl) fun _ => rfl

theorem foldl_keeps {f : Store → α → Store} {view : Store → β} (hf : ∀ s a, view (f s a) = view s)
    {xs : List α} (s : Store) : view (xs.foldl f s) = view s := by
  induction xs generalizing s with
  | nil => rfl
  | cons a xs ih => exact (ih (f s a)).trans (hf s a)

theorem silent_clearNarrowing : Silent env (changeStore (·.clearNarrowing scope name)) := by
  intro w
  refine .of_store (within_clearNarrowing _ w.store) (.of_eq ?_) ?_ ?_
  · exact foldl_keeps (fun _ _ => by rfl) w.store
  · exact congrArg Array.size (foldl_keeps (fun _ _ => by rfl) w.store)
  · exact foldl_keeps (fun _ _ => by rfl) w.store

theorem silent_addVariable (v : Variable) : Silent env (add (·.addVariable v)) :=
  fun w => .of_store (within_addVariable _ w.store) .refl rfl rfl

/-! ## Findings and occurrences -/

/-- Asks the store and reports findings of some kinds, and does nothing else. -/
def ReportsOnly (p : Kind → Prop) (m : WalkM α) : Prop :=
  ∀ w, ∃ ds, (m w).2 = withFindings ds w ∧ ∀ d ∈ ds, p d.kind

abbrev Reports (m : WalkM α) : Prop :=
  ReportsOnly (·.isWatched = false) m

variable {p : Kind → Prop} {related : List RelatedPlace} {kind : Kind}

namespace ReportsOnly

theorem query (h : ∀ w, (m w).2 = w) : ReportsOnly p m :=
  fun w => ⟨[], (h w).trans (by simp [withFindings]), nofun⟩

theorem plain {a : α} : ReportsOnly p (pure a : WalkM α) :=
  query fun _ => rfl

theorem bind (hm : ReportsOnly p m) (hf : ∀ a, ReportsOnly p (f a)) : ReportsOnly p (m >>= f) := by
  intro w
  obtain ⟨ds, hds, hkinds⟩ := hm w
  obtain ⟨ds', hds', hkinds'⟩ := hf (m w).1 (m w).2
  refine ⟨ds ++ ds', ?_, forall_mem_append.2 ⟨hkinds, hkinds'⟩⟩
  rw [bind_apply, hds', hds, withFindings_append]

theorem ask_bind {g : Store → γ} {f : γ → WalkM β} (hf : ∀ a, ReportsOnly p (f a)) :
    ReportsOnly p (ask g >>= f) :=
  bind (query fun _ => rfl) hf

theorem ite {c : Prop} [Decidable c] {m m' : WalkM α} (h : ReportsOnly p m)
    (h' : ReportsOnly p m') : ReportsOnly p (if c then m else m') := by
  split
  · exact h
  · exact h'

theorem whenChecked {m : WalkM Unit} (h : ReportsOnly p m) : ReportsOnly p (whenChecked kind m) :=
  bind (query fun _ => rfl) fun _ => ite h plain

theorem mono {q : Kind → Prop} (h : ReportsOnly p m) (hpq : ∀ k, p k → q k) : ReportsOnly q m :=
  fun w => (h w).imp fun _ hds => ⟨hds.1, fun d hd => hpq _ (hds.2 d hd)⟩

theorem unwatched (h : ReportsOnly (· = kind) m) (hk : kind.isWatched = false) : Reports m :=
  h.mono fun _ heq => heq ▸ hk

end ReportsOnly

theorem Reports.silent {env : WalkEnv} (h : Reports m) : Silent env m := by
  intro w
  obtain ⟨ds, hds, hkinds⟩ := h w
  exact hds ▸ .of_findings hkinds

theorem reportAll_apply {fs : List Finding} (w : Walk) :
    reportAll fs w = ((), withFindings (fs.map (·.toDiagnostic w.frame.path)) w) := by
  induction fs generalizing w with
  | nil => simp [reportAll, withFindings, pure_apply]
  | cons f fs ih =>
    have hfirst : reportFinding f w = ((), withFindings [f.toDiagnostic w.frame.path] w) :=
      changeFrame_accept
    change reportAll fs (reportFinding f w).2 = _
    rw [hfirst, ih, withFindings_append]
    rfl

variable {message expected key : String}

theorem report_apply : report kind message range related w =
    ((), withFindings [{ kind, message, file := w.frame.path, range, related }] w) :=
  changeFrame_accept

theorem reportsOnly_report (h : p kind) :
    ReportsOnly p (report kind message range related) :=
  fun w => ⟨[_], congrArg Prod.snd report_apply, by simpa using h⟩

/-- Where only findings of one kind are looked for, it makes no difference whether the pass is asked
for it before. -/
theorem whenChecked_eq {m : WalkM Unit} (h : ReportsOnly (· = kind) m) :
    whenChecked kind m = m := by
  funext w
  rw [whenChecked, bind_apply]
  change (if w.frame.gate.checks kind = true then m else pure ()) w = m w
  split
  · rfl
  · next hchecks =>
    obtain ⟨ds, hds, hkinds⟩ := h w
    rw [withFindings_unchecked fun d hd => by simpa [hkinds d hd] using hchecks] at hds
    exact Prod.ext rfl hds.symm

theorem reportsOnly_kind :
    ReportsOnly (· = kind) (report kind message range related) :=
  reportsOnly_report (p := (· = kind)) rfl

theorem reports_report (h : kind.isWatched = false) :
    Reports (report kind message range related) :=
  reportsOnly_report h

variable {findings : List Finding}

theorem reportsOnly_reportAll (h : ∀ f ∈ findings, p f.kind) :
    ReportsOnly p (reportAll findings) :=
  fun w => ⟨_, by rw [reportAll_apply], forall_mem_map.2 h⟩

theorem reports_whenChecked (h : ∀ f ∈ findings, f.kind = kind)
    (hk : kind.isWatched = false) : Reports (whenChecked kind (reportAll findings)) :=
  ((reportsOnly_reportAll (p := (· = kind)) h).unwatched hk).whenChecked

theorem reports_checkEnum {line : Nat} {fields : List Field} :
    ReportsOnly (· = .duplicateEnumValue) (checkEnum line fields) :=
  .bind (.query fun _ => rfl) fun _ =>
    .ite (reportsOnly_reportAll (forall_mem_map.2 fun _ _ => rfl)) .plain

theorem calm_notify : Calm env (notify name range role id) :=
  fun _ => ⟨⟨⟨.refl, fun _ => rfl, rfl⟩, rfl⟩, .refl, rfl, rfl⟩

theorem calm_notifyUnbound (name : String) (range : TextRange) (symbolClass : SymbolClass) :
    Calm env (notifyUnbound name range symbolClass) :=
  fun _ => ⟨⟨⟨.refl, fun _ => rfl, rfl⟩, rfl⟩, .refl, rfl, rfl⟩

/-! ## Scopes and functions -/

def unusedIn (w : Walk) (scope : ScopeId) : List Diagnostic :=
  ((w.store.localsOf scope).filterMap fun v => unusedFinding? (w.store.variableAt v)).map
    (·.toDiagnostic w.frame.path)

theorem kind_unusedIn : ∀ d ∈ unusedIn w scope, d.kind = .unusedLocal ∨
    d.kind = .unusedLocalFunction := by
  intro d hd
  obtain ⟨f, hf, rfl⟩ := mem_map.1 hd
  obtain ⟨v, -, hv⟩ := mem_filterMap.1 hf
  rw [unusedFinding?] at hv
  cases hfun : (w.store.variableAt v).function.isSome <;> simp only [hfun] at hv <;>
    split at hv <;> cases hv <;> simp [Finding.toDiagnostic]

theorem closeScope_apply : closeScope scope w = ((), withFindings (unusedIn w scope) w) := by
  rw [closeScope, bind_apply, bind_apply]
  change (if (w.frame.gate.checks .unusedLocal || w.frame.gate.checks .unusedLocalFunction) =
    true then
    ask _ >>= reportAll else pure ()) w = _
  split
  · exact reportAll_apply w
  · next hchecks =>
    simp only [Bool.or_eq_true, not_or, Bool.not_eq_true] at hchecks
    rw [withFindings_unchecked, pure_apply]
    intro d hd
    rcases kind_unusedIn d hd with h | h
    · rw [h, hchecks.1]
    · rw [h, hchecks.2]

theorem reports_closeScope : Reports (closeScope scope) :=
  fun w => ⟨_, congrArg Prod.snd closeScope_apply,
    fun d hd => by rcases kind_unusedIn d hd with h | h <;> rw [h] <;> rfl⟩

def gotoDiagnostic (path label : String) (range : TextRange) : Diagnostic :=
  { kind := .unknownGotoLabel, message := s!"no visible label '{label}' for goto",
    file := path, range }

def lostGotos (w : Walk) (id : FunctionId) : List Diagnostic :=
  ((w.store.functionAt id).pendingGotos.filter
    (!isVisibleLabel w.store (w.store.functionAt id) ·)).map
    fun g => gotoDiagnostic w.frame.path g.label g.range

def settled (id : FunctionId) (w : Walk) : Walk :=
  { w with store := w.store.modifyFunction id ({ · with pendingGotos := [] }) }

theorem forM_report_apply {gs : List PendingGoto} (w : Walk) :
    (gs.forM fun g =>
      report .unknownGotoLabel s!"no visible label '{g.label}' for goto" g.range) w =
      ((), withFindings (gs.map fun g => gotoDiagnostic w.frame.path g.label g.range) w) := by
  have hall : (gs.forM fun g =>
    report .unknownGotoLabel s!"no visible label '{g.label}' for goto" g.range) =
      reportAll (gs.map fun g =>
        ⟨.unknownGotoLabel, s!"no visible label '{g.label}' for goto", g.range, []⟩) := by
    symm
    exact forM_map
  rw [hall, reportAll_apply, map_map]
  rfl

theorem finishFunction_apply {id : FunctionId} :
    finishFunction id w = ((),
      withFindings (lostGotos w id ++ unusedIn w ((settled id w).store.functionAt id).mainScope)
      (settled id w)) := by
  have hsettle : changeStore (·.modifyFunction id ({ · with pendingGotos := [] })) w =
    ((), settled id w) := rfl
  have hpath : (settled id w).frame = w.frame := rfl
  rw [finishFunction, bind_apply, ask_apply, bind_apply, hsettle]
  dsimp only
  rw [bind_apply, forM_report_apply, bind_apply, ask_apply, closeScope_apply,
    withFindings_append, hpath]
  rfl

theorem place_finishFunction (id : FunctionId) (w : Walk) :
    (finishFunction id w).2.frame.place = w.frame.place := by
  rw [finishFunction_apply]
  rfl

theorem occurrences_finishFunction {id : FunctionId} :
    (finishFunction id w).2.occurrences = w.occurrences := by
  rw [finishFunction_apply]
  rfl

theorem store_finishFunction {id : FunctionId} :
    (finishFunction id w).2.store = w.store.modifyFunction id ({ · with pendingGotos := [] }) := by
  rw [finishFunction_apply]
  rfl

/-! ## Values -/

theorem silent_bindReference (info : ValueInfo) (binding : Binding) :
    Silent env (bindReference info binding) := by
  rw [bindReference]
  split
  · exact silent_modifyReference env fun _ => rfl
  · exact .pure

theorem reports_checkType :
    ReportsOnly (· = .assignmentType) (checkType name expected info range) := by
  refine .ask_bind fun type => ?_
  split
  · exact .ite reportsOnly_kind .plain
  · exact .plain

theorem reports_checkAssignedType : Reports (checkAssignedType name expected info range) :=
  reports_checkType.whenChecked.unwatched rfl

theorem reports_checkWrite : Reports (checkWrite id name range info) := by
  refine .ask_bind fun v => ?_
  cases v.declaredType with
  | some expected =>
    exact .ite (.bind (reports_report rfl) fun _ => reports_checkAssignedType)
      reports_checkAssignedType
  | none => exact .ite (.bind (reports_report rfl) fun _ => .plain) .plain

theorem silent_setMember {owner : VariableId} : Silent env (setMember owner key range info) := by
  refine .bind .ask fun member => ?_
  split
  · exact silent_reassign env
  · exact .bind .frame fun _ => .bind .ask fun v => .bind (silent_addVariable env v) fun _ =>
      silent_modifyVariable env fun _ => rfl

theorem reports_checkMember {module : VariableId} :
    ReportsOnly (· = .undefinedMember) (checkMember module key range) :=
  .ask_bind fun _ => .ite (.ask_bind fun _ => reportsOnly_kind) .plain

theorem silent_memberInfo (owner : ValueInfo) (key : String) (range : TextRange) :
    Silent env (memberInfo owner key range) := by
  rw [memberInfo]
  split
  · exact .pure
  · refine .bind .ask fun member => ?_
    split
    · exact .ask
    · exact .bind (reports_checkMember.whenChecked.unwatched rfl).silent fun _ => .pure

theorem silent_applyNarrowing (chain : ScopeId) (proven : NameSet) :
    Silent env (applyNarrowing chain proven) := by
  intro w
  refine .of_store ?_ (.of_eq ?_) ?_ ?_
  · exact within_foldl _ _ (fun s (x : String × VariableId) => within_narrow _ s)
  · exact foldl_keeps (fun _ _ => by rfl) w.store
  · exact congrArg Array.size (foldl_keeps (fun _ _ => by rfl) w.store)
  · exact foldl_keeps (fun _ _ => by rfl) w.store

theorem silent_narrowChain {chain : ScopeId} {proven : NameSet} :
    Silent env (narrowChain chain proven) :=
  fun w => .of_store (within_modifyScope _ w.store chain fun _ => rfl) .refl rfl rfl

def checkNarrowed (name : String) (range : TextRange) : WalkM Unit := do
  let w ← get
  if w.frame.guards.any (·.contains name) then return
  match w.store.narrowed? w.frame.scope name with
  | some v =>
    if currentBinding? w name == some v then report .maybeNil s!"'{name}' may be nil here" range
  | none => return

theorem checkMaybeNil_eq :
    checkMaybeNil name range = whenChecked .maybeNil (checkNarrowed name range) := by
  funext w
  rw [checkMaybeNil, whenChecked, bind_apply, bind_apply, get_apply]
  have hchecks : checks .maybeNil w = (w.frame.gate.checks .maybeNil, w) := rfl
  rw [hchecks]
  dsimp only
  cases w.frame.gate.checks .maybeNil <;> rfl

theorem reports_checkNarrowed : ReportsOnly (· = .maybeNil) (checkNarrowed name range) := by
  refine .bind (.query fun _ => rfl) fun v => .ite .plain ?_
  cases v.store.narrowed? v.frame.scope name with
  | some u => exact .ite reportsOnly_kind .plain
  | none => exact .plain

theorem silent_checkMaybeNil : Silent env (checkMaybeNil name range) := by
  rw [checkMaybeNil_eq]
  exact (reports_checkNarrowed.whenChecked.unwatched rfl).silent

theorem silent_checkIndexed {obj : Exp} : Silent env (checkIndexed obj) := by
  rw [checkIndexed]
  split
  · exact silent_checkMaybeNil env
  · exact .pure

/-! ## Operands, calls and returns -/

variable {op : BinOp}

theorem reports_checkOperand {operand : Exp} :
    ReportsOnly (· = .binaryOperandType) (checkOperand op expected operand info) := by
  refine .ask_bind fun type => ?_
  split
  · exact .ite reportsOnly_kind .plain
  · exact .plain

theorem reports_checkOperands {lhs rhs : Exp} {left right : ValueInfo} :
    Reports (checkOperands op lhs rhs left right) := by
  rw [checkOperands]
  split
  · exact (ReportsOnly.bind reports_checkOperand fun _ =>
      reports_checkOperand).whenChecked.unwatched rfl
  · exact .plain

variable {f : Function} {offset : Nat}

theorem reports_checkArity : Reports (checkArity f name args offset range) :=
  .ite .plain (.whenChecked (.ite (reports_report rfl) .plain))

theorem reports_checkArgument {param : String} {i : Nat} {arg : Exp} :
    ReportsOnly (· = .argumentType) (checkArgument f name param i arg info) := by
  refine .ask_bind fun type => ?_
  split
  · exact .ite reportsOnly_kind .plain
  · exact .plain

theorem reports_checkArguments (i : Nat) {params : List String} (args : List (Exp × ValueInfo)) :
    ReportsOnly (· = .argumentType) (checkArguments f name i params args) := by
  induction params generalizing i args with
  | nil =>
    rw [checkArguments]
    · exact .plain
    · simp
  | cons param params ih =>
    cases args with
    | nil =>
      rw [checkArguments]
      · exact .plain
      · simp
    | cons arg args => exact .bind reports_checkArgument fun _ => ih (i + 1) args

theorem reports_checkArgumentTypes {args : List (Exp × ValueInfo)} :
    ReportsOnly (· = .argumentType) (checkArgumentTypes f name args offset) :=
  .ite .plain (reports_checkArguments _ _).whenChecked

theorem reports_checkCall {callee : ValueInfo} {isMethod : Bool} :
    Reports (checkCall callee name args infos isMethod range) := by
  refine .ask_bind fun id? => ?_
  split
  · exact .plain
  · exact .ask_bind fun f => .bind reports_checkArity fun _ =>
      reports_checkArgumentTypes.unwatched rfl

variable {types : List String}

theorem reports_checkReturns (i : Nat) (values : List (Exp × ValueInfo)) :
    ReportsOnly (· = .returnType) (checkReturns i types values) := by
  induction types generalizing i values with
  | nil =>
    rw [checkReturns]
    · exact .plain
    · simp
  | cons type types ih =>
    cases values with
    | nil =>
      rw [checkReturns]
      · exact .plain
      · simp
    | cons value values =>
      refine .ask_bind fun actual => ?_
      dsimp only
      split
      · exact .ite (.bind reportsOnly_kind fun _ => ih (i + 1) values) (ih (i + 1) values)
      · exact ih (i + 1) values

theorem reports_checkReturnTypes {values : List (Exp × ValueInfo)} :
    Reports (checkReturnTypes types values) :=
  .ite .plain ((reports_checkReturns _ _).whenChecked.unwatched rfl)

theorem silent_returnedVariable {value : Exp} : Silent env (returnedVariable value info) := by
  rw [returnedVariable]
  split
  · exact .pure
  · exact .bind .frame fun _ => .bind .ask fun v => silent_addVariable env v

theorem silent_addReturn {ret : ReturnStat} : Silent env (addReturn ret infos) := by
  refine .bind .frame fun f => .bind .ask fun types =>
    .bind reports_checkReturnTypes.silent fun _ => ?_
  split
  · exact .bind (silent_returnedVariable env) fun _ => silent_modifyFunction env fun _ => rfl
  · exact silent_modifyFunction env fun _ => rfl

theorem silent_loadedInfo {load : LoadKind} {reference : ReferenceId} {value : Option VariableId} :
    Silent env (loadedInfo load reference value) := by
  cases value with
  | some v => exact .ask
  | none => exact .pure

end WalkM

/-! ## Checks of trees -/

namespace Check

theorem kind_duplicateParams (params : List Name) :
    ∀ f ∈ duplicateParams params, f.kind = .duplicateParam :=
  forall_mem_map.2 fun _ _ => rfl

theorem kind_duplicateKeys (fields : List Field) :
    ∀ f ∈ duplicateKeys fields, f.kind = .duplicateKey :=
  forall_mem_map.2 fun _ _ => rfl

theorem kind_selfAssignments (targets values : List Exp) :
    ∀ f ∈ selfAssignments targets values, f.kind = .selfAssign :=
  forall_mem_map.2 fun _ _ => rfl

theorem kind_duplicateConditionsAfter (earlier : List Exp) {cs : List Exp} :
    ∀ f ∈ duplicateConditionsAfter earlier cs, f.kind = .duplicateIf := by
  induction cs generalizing earlier with
  | nil => simp [duplicateConditionsAfter]
  | cons c cs ih =>
    intro f hf
    simp only [duplicateConditionsAfter] at hf
    split at hf
    · rcases mem_cons.1 hf with rfl | hf
      · rfl
      · exact ih _ f hf
    · exact ih _ f hf

theorem isWatched_redundantBinary (op : BinOp) (lhs rhs : Exp) (range : TextRange) :
    ∀ f ∈ redundantBinary op lhs rhs range, f.kind.isWatched = false := by
  intro f hf
  simp only [redundantBinary, mem_append] at hf
  rcases hf with hf | hf
  · split at hf <;> simp_all [Kind.isWatched]
  · split at hf <;> (try split at hf) <;> simp_all [Kind.isWatched]

theorem kind_valueCountMismatch (targets : Nat) (values : List Exp) (range : TextRange) :
    ∀ f ∈ (valueCountMismatch targets values range).toList, f.kind = .assignCount := by
  intro f hf
  simp only [valueCountMismatch] at hf
  split at hf <;> simp_all

end Check

end LuaAnalysis
