import LuaAnalysis.Proofs.Walk.Pairing

/-!
# Walks of one text in two projects

A walk of a file alone learns nothing about other files: it asks only whether its loads have
targets, and that decides about findings of one kind alone (`visitLoad_alone`); it does not look for
members of modules. So two walks of one text, each in its own project, pass through twin states, and
what they find differs in the targets of the loads and in the findings about them (`twin_walkFile`).
-/

namespace LuaAnalysis

/-- What has been found in the file itself, and not about its loads. -/
def Frame.own (f : Frame) : List Diagnostic :=
  f.findings.toList.filter (·.kind != .importNotFound)

/-- The same frame of a file alone under another number of the file, apart from findings about
loads. -/
structure Frame.Twin (ρ : FileId → FileId) (f f' : Frame) : Prop where
  same : f' = { f with file := ρ f.file, findings := f'.findings }
  own : f'.own = f.own
  alone : f.gate.pass = .fileLocal

theorem Frame.Twin.gate {ρ : FileId → FileId} {f f' : Frame} (h : f.Twin ρ f') :
    f'.gate = f.gate := by
  rw [h.same]

/-- The same state under another number of the file, in which no load has given a value. -/
structure Walk.Twin (ρ : FileId → FileId) (w w' : Walk) : Prop where
  store : w.store.Twin ρ w'.store
  tables : w'.tables = w.tables
  frame : w.frame.Twin ρ w'.frame
  unloaded : ∀ value ∈ w.loaded.values, value = none
  unloaded' : ∀ value ∈ w'.loaded.values, value = none

/-- Surroundings of two walks of files alone, with the same settings. -/
structure WalkEnv.Apart (env env' : WalkEnv) : Prop where
  pass : env.pass = .fileLocal
  pass' : env'.pass = .fileLocal
  config : env'.config = env.config
  realtime : env'.realtime = env.realtime
  suppression : env'.suppression = env.suppression
  firstPass : env.firstPass = {}
  firstPass' : env'.firstPass = {}

def FileResult.rename (ρ : FileId → FileId) (r : FileResult) : FileResult :=
  { r with file := ρ r.file }

def FileResult.apartFromLoads (r : FileResult) : FileResult :=
  { r with diagnostics := r.diagnostics.filter (·.kind != .importNotFound) }

variable {w : Walk} {f : FileId} {source : SourceFile}

namespace WalkM

variable {α : Type} {ρ : FileId → FileId} {w' : Walk} {range : TextRange}

/-- Nothing but a finding about what a load finds has been added to the state. -/
structure Remarks (w u : Walk) : Prop where
  same : ∃ found, u = { w with frame := { w.frame with findings := found } }
  own : u.frame.own = w.frame.own

theorem Remarks.refl : Remarks w w :=
  ⟨⟨_, rfl⟩, rfl⟩

theorem remarks_report {message : String} :
    Remarks w (report .importNotFound message range [] w).2 := by
  rw [report_apply]
  exact ⟨⟨_, rfl⟩, Nameless.filter_withFindings (List.forall_mem_singleton.2 rfl)⟩

theorem twin_of_remarks {u u' : Walk} (h : Walk.Twin ρ w w') (hu : Remarks w u)
    (hu' : Remarks w' u') : Walk.Twin ρ u u' := by
  obtain ⟨⟨found, rfl⟩, hown⟩ := hu
  obtain ⟨⟨found', rfl⟩, hown'⟩ := hu'
  refine { h with frame := ⟨?_, hown'.trans (h.frame.own.trans hown.symm), h.frame.alone⟩ }
  exact congrArg (fun fr : Frame => { fr with findings := found' }) h.frame.same

/-- A file that is walked alone is not searched for members that modules do not have. -/
theorem checkMember_alone {module : VariableId} {key : String}
    (h : w.frame.gate.pass = .fileLocal) : checkMember module key range w = ((), w) := by
  have hunchecked : w.frame.gate.checks .undefinedMember = false := by
    rw [Gate.checks, h]
    cases w.frame.gate.realtime <;> decide
  obtain ⟨ds, hds, hkinds⟩ := @reports_checkMember range key module w
  rw [withFindings_unchecked fun d hd => by rw [hkinds d hd, hunchecked]] at hds
  exact Prod.ext rfl hds

theorem pairing_twin : Pairing ρ (Walk.Twin ρ) where
  store h := h.store
  frame h := by
    rw [h.frame.gate]
    exact h.frame.same
  globals h := congrArg ProjectTables.globals h.tables
  changeStore hf _ _ _ h := ⟨rfl, { h with store := hf _ _ h.store }⟩
  addScope _ _ h := ⟨(h.store.addScope ..).1, { h with store := (h.store.addScope ..).2 }⟩
  addVariable v _ _ h := ⟨(h.store.addVariable v).1, { h with store := (h.store.addVariable v).2 }⟩
  addFunction spec _ _ h :=
    ⟨(h.store.addFunction spec).1, { h with store := (h.store.addFunction spec).2 }⟩
  accept d w w' h := by
    have hpath : w'.frame.path = w.frame.path := by rw [h.frame.same]
    rw [changeFrame_accept, changeFrame_accept, hpath]
    refine ⟨rfl, { h with frame := ⟨?_, ?_, h.frame.alone⟩ }⟩
    · exact congrArg (fun fr : Frame =>
        { fr with findings := (withFindings [d w.frame.path] w').frame.findings })
        h.frame.same
    · have hown : ∀ u : Walk, (withFindings [d w.frame.path] u).frame.own = u.frame.own ++ _ :=
        fun _ => filter_findings
      rw [hown, hown, h.frame.own, h.frame.gate]
  changeFrame {f} hf w w' h := by
    have hsame : f w.frame =
      { f w.frame with file := w.frame.file, gate := w.frame.gate, findings := w.frame.findings } :=
      hf w.frame w.frame.file w.frame.gate w.frame.findings
    have hfile := congrArg Frame.file hsame
    have hgate := congrArg Frame.gate hsame
    have hfindings := congrArg Frame.findings hsame
    have hframe := hf w.frame (ρ w.frame.file) w.frame.gate w'.frame.findings
    rw [← h.frame.same] at hframe
    refine ⟨rfl, { h with frame := ⟨?_, ?_, ?_⟩ }⟩
    · change f w'.frame =
        { f w.frame with file := ρ (f w.frame).file, findings := (f w'.frame).findings }
      rw [hframe, hfile, ← hgate]
    · change (f w'.frame).findings.toList.filter _ = (f w.frame).findings.toList.filter _
      rw [hframe, hfindings]
      exact h.frame.own
    · change (f w.frame).gate.pass = _
      rw [hgate]
      exact h.frame.alone
  notify _ _ h := ⟨rfl, ⟨h.store, h.tables, h.frame, h.unloaded, h.unloaded'⟩⟩
  notifyUnbound _ _ h := ⟨rfl, ⟨h.store, h.tables, h.frame, h.unloaded, h.unloaded'⟩⟩
  checkMember _ _ h := by
    rw [checkMember_alone h.frame.alone, checkMember_alone (h.frame.gate ▸ h.frame.alone)]
    exact ⟨rfl, h⟩

/-! ## Loads -/

variable {env env' : WalkEnv} {enter enter' : Enter}

def unseenInfo (l : LoadCall) (reference : ReferenceId) : ValueInfo :=
  { kind := if l.kind = .loadfile then .function else .unknown, reference := some reference }

def unseen (env : WalkEnv) (l : LoadCall) (w : Walk)
    (loaded : OrderedMap (FileId × LoadKind) (Option VariableId)) :
    Walk :=
  { recorded env l w with loaded }

theorem visitLoad_alone (enter : Enter) (hpass : env.pass = .fileLocal) (l : LoadCall)
    (hw : ∀ value ∈ w.loaded.values, value = none) :
    ∃ loaded : OrderedMap (FileId × LoadKind) (Option VariableId),
      (∀ value ∈ loaded.values, value = none) ∧
      (visitLoad env enter l.kind l.module l.range w).1 = unseenInfo l (nextReference w) ∧
      Remarks (unseen env l w loaded) (visitLoad env enter l.kind l.module l.range w).2 := by
  rw [visitLoad_apply]
  cases l.target? env with
  | none =>
    refine ⟨w.loaded, hw, ?_⟩
    dsimp only
    split
    · exact ⟨rfl, remarks_report⟩
    · exact ⟨rfl, .refl⟩
  | some target =>
    -- The load has just been recorded, so that it is not marked.
    have hmark : ∀ loaded,
        ((unseen env l w loaded).store.referenceAt (nextReference w)).inProgress = false := by
      intro loaded
      change ((w.store.addReference (l.reference env)).1.referenceAt _).inProgress = _
      rw [Store.referenceAt_addReference,
        if_pos (show (nextReference w).index = w.store.references.size from rfl)]
      rfl
    have hvalue : ∃ loaded : OrderedMap (FileId × LoadKind) (Option VariableId),
        (∀ value ∈ loaded.values, value = none) ∧
        moduleValue env enter (nextReference w) target l.kind (recorded env l w) =
          (none, unseen env l w loaded) := by
      rw [moduleValue, bind_apply, get_apply]
      dsimp only
      cases hget : (recorded env l w).loaded.get? (target, l.kind) with
      | some value =>
        have hnone : value = none := hw value (OrderedMap.mem_values_of_get? hget)
        exact ⟨w.loaded, hw, by rw [hnone]; rfl⟩
      | none =>
        rw [hpass]
        refine ⟨w.loaded.insert (target, l.kind) none, fun value hvalue => ?_, rfl⟩
        rcases OrderedMap.mem_values_insert hvalue with heq | hmem
        · exact heq
        · exact hw value hmem
    obtain ⟨loaded, hloaded, hvalue⟩ := hvalue
    refine ⟨loaded, hloaded, ?_⟩
    dsimp only
    rw [bind_apply, hvalue, bind_apply, ask_apply, hmark]
    exact ⟨rfl, .refl⟩

theorem twin_unseen (env env' : WalkEnv) (l : LoadCall) (hw : Walk.Twin ρ w w')
    {loaded loaded' : OrderedMap (FileId × LoadKind) (Option VariableId)}
    (hloaded : ∀ value ∈ loaded.values, value = none) (hloaded' : ∀ value ∈ loaded'.values, value =
      none) : Walk.Twin ρ (unseen env l w loaded) (unseen env' l w' loaded') where
  store := (hw.store.addReference
    (show (l.reference env').withoutTarget = (l.reference env).withoutTarget from rfl)).2
  tables := hw.tables
  frame := by
    refine ⟨?_, hw.frame.own, hw.frame.alone⟩
    have hnext : nextReference w' = nextReference w :=
      congrArg ReferenceId.mk hw.store.size_references
    change { w'.frame with references := w'.frame.references ++ [nextReference w'] } = _
    rw [hnext]
    exact congrArg
      (fun fr : Frame => { fr with references := fr.references ++ [nextReference w] }) hw.frame.same
  unloaded := hloaded
  unloaded' := hloaded'

theorem agrees_visitLoad (h : env.Apart env') {load : LoadKind} {module : String} :
    Agrees (Walk.Twin ρ) (visitLoad env enter load module range)
      (visitLoad env' enter' load module range) := by
  intro w w' hw
  obtain ⟨loaded, hloaded, hvalue, hstate⟩ :=
    visitLoad_alone enter h.pass ⟨load, module, range⟩ hw.unloaded
  obtain ⟨loaded', hloaded', hvalue', hstate'⟩ :=
    visitLoad_alone enter' h.pass' ⟨load, module, range⟩ hw.unloaded'
  have hnext : nextReference w' = nextReference w :=
    congrArg ReferenceId.mk hw.store.size_references
  exact ⟨by rw [hvalue, hvalue', hnext],
    twin_of_remarks (twin_unseen env env' _ hw hloaded hloaded') hstate hstate'⟩

/-! ## Surroundings -/

section

variable (h : env.Apart env')
include h

theorem visibleGlobal?_alone {name : String} :
    visibleGlobal? env name = pure none ∧ visibleGlobal? env' name = pure none := by
  unfold visibleGlobal?
  rw [h.pass, h.pass']
  exact ⟨rfl, rfl⟩

theorem agrees_lookup (name : String) :
    Agrees (Walk.Twin ρ) (lookup env name) (lookup env' name) := by
  have hroot : ({} : FirstPass).rootGlobal? name = none := rfl
  obtain ⟨hvisible, hvisible'⟩ := visibleGlobal?_alone h
  refine .get_bind fun w w' hw => ?_
  rw [hw.store.lookupLocal?, hw.tables, hw.frame.same, h.firstPass, h.firstPass', hroot, hvisible,
    hvisible']
  dsimp only
  cases w.store.lookupLocal? w.frame.scope name with
  | some id => exact .pure
  | none =>
    cases w.frame.globals.get? name with
    | some id => exact .pure
    | none =>
      cases w.tables.rootGlobals.get? name with
      | some id => exact .pure
      | none =>
        change Agrees (Walk.Twin ρ) (lookupUndefined env name) (lookupUndefined env' name)
        unfold lookupUndefined
        simp only [h.pass, h.pass', h.config]
        refine .ite .pure ?_
        rw [if_pos (by decide), if_pos (by decide)]
        exact .pure

theorem agrees_changeTables {f f' : ProjectTables → ProjectTables} :
    Agrees (Walk.Twin ρ) (changeTables env f) (changeTables env' f') := by
  unfold changeTables
  rw [h.pass, h.pass', if_neg (by decide), if_neg (by decide)]
  exact .pure

theorem paired_twin : Paired ρ (Walk.Twin ρ) env env' enter enter' where
  toPairing := pairing_twin
  lookup := agrees_lookup h
  knownGlobal? name := by
    refine pairing_twin.frame_bind fun fr _ _ => ?_
    dsimp only
    cases fr.globals.get? name with
    | some id => exact .pure
    | none =>
      rw [(visibleGlobal?_alone h).1, (visibleGlobal?_alone h).2]
      exact .pure
  knownRootGlobal? name := by
    refine .get_bind fun w w' hw => ?_
    rw [hw.frame.same, h.pass, h.pass']
    dsimp only
    cases w.frame.rootGlobals.get? name with
    | some id => exact .pure
    | none => exact .pure
  shareGlobal := agrees_changeTables h
  shareRootGlobal := agrees_changeTables h
  loadOf? func args hw := by
    unfold loadOf?
    rw [h.config, hw.frame.same]
    simp only [hw.store.lookupLocal?]
  visitLoad := agrees_visitLoad h

end

/-! ## Files -/

/-- The same text under the same path, with the same annotations. -/
structure SameFile (env env' : WalkEnv) (source source' : SourceFile) : Prop where
  path : source'.path = source.path
  text : source'.source = source.source
  annotations : env'.annotations.ofFile source.path = env.annotations.ofFile source.path

variable {source' : SourceFile}

theorem gate_apart (h : env.Apart env') (hs : SameFile env env' source source') :
    env'.gate source' = env.gate source := by
  unfold WalkEnv.gate
  rw [h.pass, h.pass', h.realtime, h.suppression, hs.path, hs.text]

theorem twin_entering (h : env.Apart env') (hs : SameFile env env' source source') {chunk : Chunk} :
    Walk.Twin ρ (entering env f source chunk (.start .fileLocal))
      (entering env' (ρ f) source' chunk (.start .fileLocal)) := by
  have hstore := ((Store.twin_empty ρ).addFunction (.main f chunk.range)).2
  refine ⟨hstore, rfl, ⟨?_, rfl, h.pass⟩, nofun, nofun⟩
  have hscope : (entering env' (ρ f) source' chunk (.start .fileLocal)).frame.scope =
      (entering env f source chunk (.start .fileLocal)).frame.scope := hstore.mainScope
  let first (path : String) (annotations : Annotations) (gate : Gate) (scope : ScopeId) : Frame :=
    { file := ρ f, path, annotations, gate, function := nextMain (.start .fileLocal), scope }
  change first source'.path (env'.annotations.ofFile source'.path) (env'.gate source')
    (entering env' (ρ f) source' chunk (.start .fileLocal)).frame.scope = _
  rw [hscope, gate_apart h hs, hs.path, hs.annotations]
  rfl

theorem treeResult_twin (hw : Walk.Twin ρ w w') (hpath : source'.path = source.path)
    {main : FunctionId} :
    ((treeResult f source main w).rename ρ).apartFromLoads =
      (treeResult (ρ f) source' main w').apartFromLoads := by
  have hreturn : (w'.store.functionAt main).lastValueReturn? =
      (w.store.functionAt main).lastValueReturn? := by
    obtain ⟨file, hfile⟩ := hw.store.functionAt main
    rw [hfile]
    rfl
  have hown : w'.frame.findings.toList.filter (·.kind != .importNotFound) =
      w.frame.findings.toList.filter (·.kind != .importNotFound) := hw.frame.own
  unfold treeResult FileResult.rename FileResult.apartFromLoads
  dsimp only
  rw [hreturn, hown, hpath, hw.frame.same]

theorem twin_walkFile (h : env.Apart env') (hs : SameFile env env' source source')
    (hf : env.files.get? f = some source) (hf' : env'.files.get? (ρ f) = some source')
    (available available' : List FileId) :
    ∃ r r' w w', walkFile env available f (.start .fileLocal) = (some r, w) ∧
      walkFile env' available' (ρ f) (.start .fileLocal) = (some r', w') ∧
      (r.rename ρ).apartFromLoads = r'.apartFromLoads ∧ w.store.Twin ρ w'.store := by
  cases htree : source.source.tree with
  | error e =>
    have htree' : source'.source.tree = .error e := hs.text ▸ htree
    refine ⟨_, _, _, _, walkFile_of_error hf htree, walkFile_of_error hf' htree', ?_,
      Store.twin_empty ρ⟩
    unfold brokenResult SourceFile.syntaxDiagnostic WalkEnv.keeps
    rw [gate_apart h hs, hs.path]
    rfl
  | ok chunk =>
    have htree' : source'.source.tree = .ok chunk := hs.text ▸ htree
    have hend : Walk.Twin ρ (atEnd env (enterFrom env available) f source chunk (.start .fileLocal))
        (atEnd env' (enterFrom env' available') (ρ f) source' chunk (.start .fileLocal)) :=
      ((paired_twin h).walkTree _ _ (twin_entering h hs)).2
    have hstore : ∀ w w' : Walk, (leaving w w').store = w'.store := fun _ _ => rfl
    refine ⟨_, _, _, _, walkFile_of_ok hf htree, walkFile_of_ok hf' htree', ?_, ?_⟩
    · exact treeResult_twin hend hs.path
    · rw [hstore, hstore]
      exact hend.store

end WalkM

end LuaAnalysis
