import LuaAnalysis.Proofs.Walk.Quiet
import LuaAnalysis.Proofs.Walk.Script

/-!
# Loads

What a load changes in every pass (`LoadStep`): the file gets one reference more, which is marked
exactly when the load closes a cycle, and nothing else in its frame changes. A load may walk other
files; such a walk has to come back to the file that it left (`ComesBack`).
-/

namespace LuaAnalysis

open Store

def LoadCall.target? (l : LoadCall) (env : WalkEnv) : Option FileId :=
  Load.target? env.files env.config.imports l.kind l.module

def LoadCall.reference (l : LoadCall) (env : WalkEnv) : Reference :=
  { path := l.module, load := l.kind, target := l.target? env, range := l.range }

/-- Findings about circular loads get into the diagnostics. -/
def Gate.ShowsCycles (g : Gate) : Prop :=
  ∀ d : Diagnostic, d.isLoadCycle = true → g.admits d = true

namespace WalkM

/-! ## Coming back -/

/-- Other files may have been walked in between, but the walk is in the same place of the same
file. -/
structure ComesBack (w w' : Walk) : Prop where
  store : Store.Extends (fun _ => False) w.store w'.store
  functions : Grows Function.jumps w.store.functions w'.store.functions
  frame : w'.frame = w.frame
  active : w'.phase.active = w.phase.active
  loadSites : w'.loadSites = w.loadSites

theorem ComesBack.refl {w : Walk} : ComesBack w w :=
  ⟨.refl _, .refl, rfl, rfl, rfl⟩

/-- Entering a file comes back. -/
def Enter.Returns (enter : Enter) : Prop :=
  ∀ target w, w.store.WellFormed → ComesBack w (enter target w).2

variable {env : WalkEnv} {enter : Enter} {target : FileId} {l : LoadCall}

/-! ## The value of a load -/

def waiting (w : Walk) (site : TextRange) : Walk :=
  { w with loadSites := ⟨w.frame.file, site⟩ :: w.loadSites }

theorem withLoadSite_apply {α : Type} {site : TextRange} {body : WalkM α} {w : Walk} :
    withLoadSite site body w =
      ((body (waiting w site)).1,
        { (body (waiting w site)).2 with loadSites := (body (waiting w site)).2.loadSites.tail }) :=
          rfl

def remembering (w : Walk) (target : FileId) (load : LoadKind)
    (value : Store × Option VariableId) : Walk :=
  { w with store := value.1, loaded := w.loaded.insert (target, load) value.2 }

/-- What computing the value of a load does to the state. -/
inductive Fetched (env : WalkEnv) (enter : Enter) (reference : ReferenceId) (target : FileId)
    (load : LoadKind) (w : Walk) : Walk → Prop
  | memo (value : Option VariableId) (h : w.loaded.get? (target, load) = some value) :
    Fetched env enter reference target load w w
  | alone (h : w.loaded.get? (target, load) = none) (hp : env.pass = .fileLocal) :
    Fetched env enter reference target load w (remembering w target load (w.store, none))
  | cycle (h : w.loaded.get? (target, load) = none) (hp : env.pass = .project)
      (ha : w.phase.isActive target = true) :
    Fetched env enter reference target load w
      { w with store := w.store.modifyReference reference ({ · with inProgress := true }) }
  | finished (r : FileResult) (h : w.loaded.get? (target, load) = none) (hp : env.pass = .project)
      (ha : w.phase.isActive target = false) (hr : w.tables.files.get? target = some r) :
    Fetched env enter reference target load w
    (remembering w target load (w.store.bindModule load r))
  | entered (r : FileResult) (w₁ w₂ : Walk) (h : w.loaded.get? (target, load) = none)
      (hp : env.pass = .project)
      (ha : w.phase.isActive target = false) (hr : w.tables.files.get? target = none)
      (he : enter target (waiting w (w.store.referenceAt reference).range) = (some r, w₁))
      (hw : w₂ = { w₁ with
        loadSites := w₁.loadSites.tail, tables :=
          { w₁.tables with files := w₁.tables.files.insert target r } }) :
    Fetched env enter reference target load w
    (remembering w₂ target load (w₂.store.bindModule load r))
  | absent (w₁ : Walk) (h : w.loaded.get? (target, load) = none) (hp : env.pass = .project)
      (ha : w.phase.isActive target = false) (hr : w.tables.files.get? target = none)
      (he : enter target (waiting w (w.store.referenceAt reference).range) = (none, w₁)) :
    Fetched env enter reference target load w { w₁ with loadSites := w₁.loadSites.tail }
  | copied (a : FileAnalysis) (h : w.loaded.get? (target, load) = none) (hp : env.pass ≠ .project)
      (ha : env.firstPass.get? target = some a) :
    Fetched env enter reference target load w
    (remembering w target load (w.store.importModule load a))
  | missing (h : w.loaded.get? (target, load) = none) (hp : env.pass ≠ .project)
      (ha : env.firstPass.get? target = none) :
    Fetched env enter reference target load w (remembering w target load (w.store, none))

theorem fetched_moduleValue (reference : ReferenceId) (target : FileId) (load : LoadKind)
    (w : Walk) :
    Fetched env enter reference target load w
      (moduleValue env enter reference target load w).2 := by
  rw [moduleValue, bind_apply, get_apply]
  cases h : w.loaded.get? (target, load) with
  | some value => exact .memo value h
  | none =>
    cases hp : env.pass with
    | fileLocal => exact .alone h hp
    | project =>
      cases ha : w.phase.isActive target with
      | true => exact .cycle h hp ha
      | false =>
        simp only [Bool.false_eq_true, if_false, bind_apply, resultOf, get_apply]
        cases hr : w.tables.files.get? target with
        | some r => exact .finished r h hp ha hr
        | none =>
          obtain ⟨⟨r?, w₁⟩, he⟩ :
            ∃ x, enter target (waiting w (w.store.referenceAt reference).range) = x := ⟨_, rfl⟩
          simp only [bind_apply, withLoadSite_apply, he]
          cases r? with
          | none => exact .absent w₁ h hp ha hr he
          | some r =>
            simp only [bind_apply, changeTables_apply, pure_apply, if_pos hp]
            exact .entered r w₁ _ h hp ha hr he rfl
    | _ =>
      simp only
      cases ha : env.firstPass.get? target with
      | some a => exact .copied a h (by simp [hp]) ha
      | none => exact .missing h (by simp [hp]) ha

def closesCycle (env : WalkEnv) (w : Walk) (target : FileId) (load : LoadKind) : Bool :=
  env.pass == .project && (w.loaded.get? (target, load)).isNone && w.phase.isActive target

theorem ComesBack.remembering {w w' : Walk} (h : ComesBack w w') {load : LoadKind}
    {value : Store × Option VariableId} (hv : Store.Extends (fun _ => False) w'.store value.1)
    (hf : Grows Function.jumps w'.store.functions value.1.functions) :
    ComesBack w (remembering w' target load value) :=
  ⟨h.store.trans hv, h.functions.trans hf, h.frame, h.active, h.loadSites⟩

theorem moduleValue_comesBack (he : enter.Returns) {w : Walk} (hw : w.store.WellFormed)
    (reference : ReferenceId) (target : FileId) (load : LoadKind) :
    if closesCycle env w target load then
      (moduleValue env enter reference target load w).2 =
        { w with store := w.store.modifyReference reference ({ · with inProgress := true }) }
    else ComesBack w (moduleValue env enter reference target load w).2 := by
  have hrefl : ComesBack w w := .refl
  have hback : ∀ {r? w₁},
    enter target (waiting w (w.store.referenceAt reference).range) = (r?, w₁) →
      ComesBack w { w₁ with loadSites := w₁.loadSites.tail } := by
    intro r? w₁ hr
    have h := he target (waiting w (w.store.referenceAt reference).range) hw
    rw [hr] at h
    exact ⟨h.store, h.functions, h.frame, h.active, congrArg List.tail h.loadSites⟩
  have hfetched : Fetched env enter reference target load w _ :=
    fetched_moduleValue reference target load w
  generalize (moduleValue env enter reference target load w).2 = w' at hfetched ⊢
  cases hfetched with
  | memo value h => simpa [closesCycle, h] using hrefl
  | alone h hp =>
    rw [if_neg (by simp [closesCycle, hp])]
    exact hrefl.remembering (.refl _) .refl
  | cycle h hp ha => simp [closesCycle, h, hp, ha]
  | finished r h hp ha hr =>
    rw [if_neg (by simp [closesCycle, ha])]
    exact hrefl.remembering (within_bindModule _ _ _).toExtends (functions_bindModule _)
  | entered r w₁ w₂ h hp ha hr hent hw₂ =>
    rw [if_neg (by simp [closesCycle, ha])]
    have hb := hback hent
    have h₂ : ComesBack w w₂ := by
      subst hw₂
      exact ⟨hb.store, hb.functions, hb.frame, hb.active, hb.loadSites⟩
    exact h₂.remembering (within_bindModule _ _ _).toExtends (functions_bindModule _)
  | absent w₁ h hp ha hr hent =>
    rw [if_neg (by simp [closesCycle, ha])]
    exact hback hent
  | copied a h hp ha =>
    rw [if_neg (by simp [closesCycle, hp])]
    have hcopy := copiesFrom_importModule w.store load a
    exact hrefl.remembering hcopy.within.toExtends (.of_id hcopy.rests.functions)
  | missing h hp ha =>
    rw [if_neg (by simp [closesCycle, hp])]
    exact hrefl.remembering (.refl _) .refl

/-! ## Loads -/

def isCyclic (env : WalkEnv) (w : Walk) (l : LoadCall) : Bool :=
  (l.target? env).any fun target => closesCycle env w target l.kind

def nextReference (w : Walk) : ReferenceId :=
  ⟨w.store.references.size⟩

/-- What a load changes in the file that makes it. -/
structure LoadStep (env : WalkEnv) (l : LoadCall) (w w' : Walk) : Prop where
  store : Store.Extends (fun _ => False) w.store w'.store
  functions : Grows Function.jumps w.store.functions w'.store.functions
  place : w'.frame.place = w.frame.place
  active : w'.phase.active = w.phase.active
  loadSites : w'.loadSites = w.loadSites
  globals : w'.frame.globals = w.frame.globals
  rootGlobals : w'.frame.rootGlobals = w.frame.rootGlobals
  undefined : w'.frame.undefined = w.frame.undefined
  undefinedFindings : w'.names.undefinedFindings = w.names.undefinedFindings
  jumpFindings : w'.jumpFindings = w.jumpFindings
  earlyFindings : w'.names.earlyFindings = w.names.earlyFindings
  references : w'.frame.references = w.frame.references ++ [nextReference w]
  size_lt : (nextReference w).index < w'.store.references.size
  reference : (w'.store.referenceAt (nextReference w)).core =
    { l.reference env with inProgress := isCyclic env w l }
  cycles : w.frame.gate.ShowsCycles →
    (w'.course.cycles = [] ↔ w.course.cycles = [] ∧ isCyclic env w l = false)

def recorded (env : WalkEnv) (l : LoadCall) (w : Walk) : Walk :=
  { w with
    store := (w.store.addReference (l.reference env)).1
    frame := { w.frame with references := w.frame.references ++ [nextReference w] } }

namespace LoadStep

variable {l : LoadCall} {w w' w'' : Walk}

theorem trans_still (h : LoadStep env l w w') (h' : Still env w' w'') : LoadStep env l w w'' where
  store := h.store.trans h'.store.toExtends
  functions := h.functions.trans h'.functions
  place := h'.place.trans h.place
  active := (congrArg (fun c => c.phase.active) h'.course).trans h.active
  loadSites := (congrArg Course.loadSites h'.course).trans h.loadSites
  globals := h'.globals.trans h.globals
  rootGlobals := h'.rootGlobals.trans h.rootGlobals
  undefined := h'.undefined.trans h.undefined
  undefinedFindings := by rw [h'.names, h.undefinedFindings]
  jumpFindings := h'.jumpFindings.trans h.jumpFindings
  earlyFindings := by rw [h'.names, h.earlyFindings]
  references := (congrArg Course.references h'.course).trans h.references
  size_lt := Nat.lt_of_lt_of_le h.size_lt h'.store.references.size_le
  reference := by rw [h'.store.reference_core h.size_lt, h.reference]
  cycles hshows := by rw [h'.course, h.cycles hshows]

theorem of_comesBack (h : ComesBack (recorded env l w) w') (hc : isCyclic env w l = false) :
    LoadStep env l w w' := by
  have hnew : (recorded env l w).store.referenceAt (nextReference w) = l.reference env := by
    change (w.store.addReference (l.reference env)).1.referenceAt _ = _
    rw [referenceAt_addReference]
    exact if_pos rfl
  have hsize : (nextReference w).index < (recorded env l w).store.references.size := by
    simp [recorded, Store.addReference, nextReference]
  exact
    { store := (within_addReference _ w.store (l.reference env)).toExtends.trans h.store
      functions := h.functions
      place := by rw [h.frame]; rfl
      active := h.active
      loadSites := h.loadSites
      globals := by rw [h.frame]; rfl
      rootGlobals := by rw [h.frame]; rfl
      undefined := by rw [h.frame]; rfl
      undefinedFindings := by simp [Walk.names, h.frame, recorded]
      jumpFindings := by simp [Walk.jumpFindings, h.frame, recorded]
      earlyFindings := by simp [Walk.names, h.frame, recorded]
      references := by rw [h.frame]; rfl
      size_lt := Nat.lt_of_lt_of_le hsize h.store.references.size_le
      reference := by rw [h.store.reference_core hsize, hnew, hc]; rfl
      cycles := fun _ => by simp [Walk.course, h.frame, recorded, hc] }

end LoadStep

theorem reportCycle_apply {module : String} {range : TextRange} {w : Walk} :
    ∃ d : Diagnostic, d.isLoadCycle = true ∧
      (reportCycle env module target range w).2 = withFindings [d] w := by
  rw [reportCycle, bind_apply, get_apply, report_apply]
  exact ⟨_, by simp [Diagnostic.isLoadCycle, toString, List.isPrefixOf], rfl⟩

def marking (env : WalkEnv) (l : LoadCall) (w : Walk) : Store :=
  (recorded env l w).store.modifyReference (nextReference w) ({ · with inProgress := true })

theorem referenceAt_marking {w : Walk} :
    (marking env l w).referenceAt (nextReference w) =
      { l.reference env with inProgress := true } := by
  have hlt : (nextReference w).index < (recorded env l w).store.references.size := by
    simp [recorded, Store.addReference, nextReference]
  refine getD_modify.trans ((if_pos ⟨rfl, hlt⟩).trans ?_)
  change { (w.store.addReference (l.reference env)).1.referenceAt
    (nextReference w) with inProgress := true } = _
  rw [referenceAt_addReference]
  simp [nextReference]

theorem size_marking {w : Walk} :
    (marking env l w).references.size = w.store.references.size + 1 := by
  simp [marking, recorded, Store.addReference, Store.modifyReference]

theorem extends_marking {w : Walk} : Store.Extends (fun _ => False) w.store (marking env l w) := by
  have hadd := (within_addReference (fun _ => False) w.store (l.reference env)).toExtends
  exact
    { hadd with
      references := hadd.references.modify_new (Nat.le_refl _) ({ · with inProgress := true })
      wellFormed := fun hs =>
        (hadd.wellFormed hs).of_scopes rfl .refl (fun _ => rfl) (Nat.le_refl _) rfl }

theorem loadStep_of_cyclic {w : Walk} (hc : isCyclic env w l = true) : LoadStep env l w
      (reportCycle env l.module target l.range
        { recorded env l w with store := marking env l w }).2 := by
  obtain ⟨d, hd, hreport⟩ := @reportCycle_apply env target l.module l.range
    { recorded env l w with store := marking env l w }
  rw [hreport]
  have hkind : d.kind = .loadOrder := by simp_all [Diagnostic.isLoadCycle]
  exact
    { store := extends_marking
      functions := .refl
      place := rfl
      active := rfl
      loadSites := rfl
      globals := rfl
      rootGlobals := rfl
      undefined := rfl
      undefinedFindings := Nameless.filter_withFindings (by simp [hkind])
      jumpFindings := Nameless.filter_withFindings (by simp [hkind])
      earlyFindings := Nameless.filter_withFindings (by simp [Diagnostic.isEarlyUse, hd])
      references := rfl
      size_lt := by
        change (nextReference w).index < (marking env l w).references.size
        rw [size_marking]
        exact Nat.lt_succ_self _
      reference := by
        change ((marking env l w).referenceAt (nextReference w)).core = _
        rw [referenceAt_marking, hc]
        rfl
      cycles := fun hshows => by
        have hadmits : w.frame.gate.admits d = true := hshows d hd
        simp [withFindings, Walk.course, recorded, hc, hd, hadmits] }

theorem visitLoad_apply {w : Walk} :
    visitLoad env enter l.kind l.module l.range w = (match l.target? env with
      | none => do
        if !Load.isExternal env.config.imports l.module then
          report .importNotFound s!"cannot find module '{l.module}'" l.range
        loadedInfo l.kind (nextReference w) none
      | some target => do
        let value ← moduleValue env enter (nextReference w) target l.kind
        if ← ask fun s => (s.referenceAt (nextReference w)).inProgress then
          reportCycle env l.module target l.range
        loadedInfo l.kind (nextReference w) value : WalkM ValueInfo) (recorded env l w) := rfl

theorem loadStep_visitLoad (he : enter.Returns) {w : Walk} (hw : w.store.WellFormed)
    (l : LoadCall) : LoadStep env l w (visitLoad env enter l.kind l.module l.range w).2 := by
  have hwell : (recorded env l w).store.WellFormed :=
    (within_addReference (fun _ => False) w.store (l.reference env)).wellFormed hw
  rw [visitLoad_apply]
  cases ht : l.target? env with
  | none =>
    have hc : isCyclic env w l = false := by simp [isCyclic, ht]
    refine (LoadStep.of_comesBack .refl hc).trans_still (Silent.still ?_ _)
    exact .ite (.bind (reports_report rfl).silent fun _ => silent_loadedInfo env)
      (silent_loadedInfo env)
  | some target =>
    have hvalue := @moduleValue_comesBack env enter he _ hwell (nextReference w) target l.kind
    have hclose : closesCycle env (recorded env l w) target l.kind = isCyclic env w l := by
      simp only [isCyclic, ht, Option.any_some]
      rfl
    rw [hclose] at hvalue
    dsimp only
    rw [bind_apply, bind_apply, ask_apply]
    cases hc : isCyclic env w l with
    | true =>
      rw [hc, if_pos rfl] at hvalue
      have hmark : ((moduleValue env enter
        (nextReference w) target l.kind (recorded env l w)).2.store.referenceAt
          (nextReference w)).inProgress = true := by
        rw [hvalue]
        exact congrArg Reference.inProgress referenceAt_marking
      rw [if_pos hmark, bind_apply, hvalue]
      exact (loadStep_of_cyclic hc).trans_still (silent_loadedInfo env _).toStill
    | false =>
      rw [hc, if_neg Bool.false_ne_true] at hvalue
      have hstep := LoadStep.of_comesBack hvalue hc
      have hmark := congrArg Reference.inProgress hstep.reference
      rw [hc] at hmark
      rw [if_neg (by exact fun h => absurd (hmark.symm.trans h) Bool.false_ne_true)]
      exact hstep.trans_still (silent_loadedInfo env _).toStill

end WalkM

end LuaAnalysis
