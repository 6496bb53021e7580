import LuaAnalysis.Proofs.Symbol.Twin
import LuaAnalysis.Proofs.Walk.File
import LuaAnalysis.Proofs.Walk.Settled

/-!
# Two walks of one tree

What a walk does at a node depends on little of its state: on the store up to the numbers of files
and the targets of loads, on the frame up to the number of its file, its gate and the findings so
far, and on the globals in the tables. `Agrees` says of two computations that from states in a
relation they give the same value and lead to states in the relation again. Relations that the steps
at single nodes keep (`Pairing`), in surroundings where names and loads agree (`Paired`), are kept
by whole trees (`Paired.walkTree`).
-/

namespace LuaAnalysis.WalkM

variable {α β : Type} {ρ : FileId → FileId} {S : Walk → Walk → Prop}

/-- From related states the computations give the same value and lead to related states. -/
def Agrees (S : Walk → Walk → Prop) (m m' : WalkM α) : Prop :=
  ∀ w w', S w w' → (m' w').1 = (m w).1 ∧ S (m w).2 (m' w').2

/-- The computation leads related states to related states, and gives the same value in both. -/
abbrev Keeps (S : Walk → Walk → Prop) (m : WalkM α) : Prop :=
  Agrees S m m

namespace Agrees

variable {m m' n n' : WalkM α}

theorem pure {a : α} : Agrees S (pure a : WalkM α) (pure a) :=
  fun _ _ h => ⟨rfl, h⟩

theorem bind {f f' : α → WalkM β} (hm : Agrees S m m') (hf : ∀ a, Agrees S (f a) (f' a)) :
    Agrees S (m >>= f) (m' >>= f') := by
  intro w w' h
  obtain ⟨hvalue, hstate⟩ := hm w w' h
  rw [bind_apply, bind_apply, hvalue]
  exact hf _ _ _ hstate

theorem map {f : α → β} (hm : Agrees S m m') : Agrees S (f <$> m) (f <$> m') := by
  intro w w' h
  obtain ⟨hvalue, hstate⟩ := hm w w' h
  exact ⟨congrArg f hvalue, hstate⟩

theorem get_bind {f f' : Walk → WalkM α} (hf : ∀ w w', S w w' → Agrees S (f w) (f' w')) :
    Agrees S (get >>= f) (get >>= f') :=
  fun w w' h => hf w w' h w w' h

theorem ite {c : Prop} [Decidable c] (h : Agrees S m m') (h' : Agrees S n n') :
    Agrees S (if c then m else n) (if c then m' else n') := by
  split
  · exact h
  · exact h'

/-- Whether the pass reports a kind may be asked early, whichever way the two gates decide. -/
theorem whenChecked {kind : Kind} {m m' : WalkM Unit} (hm : ReportsOnly (· = kind) m)
    (hm' : ReportsOnly (· = kind) m') (h : Agrees S m m') :
    Agrees S (whenChecked kind m) (whenChecked kind m') := by
  rw [whenChecked_eq hm, whenChecked_eq hm']
  exact h

theorem forM {f f' : β → WalkM PUnit} (hf : ∀ a, Agrees S (f a) (f' a)) {xs : List β} :
    Agrees S (xs.forM f) (xs.forM f') := by
  induction xs with
  | nil => exact .pure
  | cons a xs ih => exact .bind (hf a) fun _ => ih

end Agrees

variable {w w' : Walk} {id : VariableId} {function : FunctionId} {scope chain : ScopeId}
  {name key : String}
  {range statement : TextRange} {info : ValueInfo}
variable {f f' : Function} {m m' : WalkM α} {infos : List ValueInfo}

/-- A relation between states under two numbers of a file, kept by what changes the store, the frame
and the occurrences at a node. -/
structure Pairing (ρ : FileId → FileId) (S : Walk → Walk → Prop) : Prop where
  store {w w' : Walk} : S w w' → w.store.Twin ρ w'.store
  frame {w w' : Walk} : S w w' → w'.frame =
    { w.frame with file := ρ w.frame.file, gate := w'.frame.gate, findings := w'.frame.findings }
  globals {w w' : Walk} : S w w' → w'.tables.globals = w.tables.globals
  changeStore {f : Store → Store} (hf : ∀ s s', s.Twin ρ s' → (f s).Twin ρ (f s'))
    (hsettles : ∀ s, Store.Settles s (f s)) :
    Keeps S (changeStore f)
  addScope {kind : ScopeKind} {parent : Option ScopeId} {function : FunctionId}
    {range : TextRange} :
    Keeps S (add (·.addScope kind parent function range))
  addVariable (v : Variable) : Agrees S (add (·.addVariable v)) (add (·.addVariable (v.rename ρ)))
  addFunction (spec : FunctionSpec) :
    Agrees S (add (·.addFunction spec)) (add (·.addFunction { spec with file := ρ spec.file }))
  accept (d : String → Diagnostic) : Keeps S (changeFrame fun f => f.accept (d f.path))
  changeFrame {f : Frame → Frame}
    (hf : ∀ fr file gate findings, f { fr with file, gate, findings } =
      { f fr with file, gate, findings }) :
    Keeps S (changeFrame f)
  notify {name : String} {range : TextRange} {role : NameRole} {id : VariableId} :
    Keeps S (notify name range role id)
  notifyUnbound {name : String} {range : TextRange} {symbolClass : SymbolClass} :
    Keeps S (notifyUnbound name range symbolClass)
  checkMember {module : VariableId} {key : String} {range : TextRange} :
    Keeps S (checkMember module key range)

namespace Pairing

variable (hS : Pairing ρ S)
include hS

theorem frame_bind {f f' : Frame → WalkM α}
    (hf : ∀ fr gate found, Agrees S (f fr)
      (f' { fr with file := ρ fr.file, gate, findings := found })) :
    Agrees S (WalkM.frame >>= f) (WalkM.frame >>= f') := by
  intro w w' h
  have happly := hf w.frame w'.frame.gate w'.frame.findings w w' h
  rw [← hS.frame h] at happly
  exact happly

theorem ask {f f' : Store → α} (hf : ∀ s s', s.Twin ρ s' → f' s' = f s) :
    Agrees S (ask f) (ask f') :=
  fun _ _ h => ⟨hf _ _ (hS.store h), h⟩

theorem ask_bind {f f' : Store → α} {g g' : α → WalkM β}
    (hg : ∀ s s', s.Twin ρ s' → Agrees S (g (f s)) (g' (f' s'))) :
    Agrees S (WalkM.ask f >>= g) (WalkM.ask f' >>= g') :=
  fun w w' h => hg _ _ (hS.store h) w w' h

theorem report {kind : Kind} {message : String} {related : List RelatedPlace} :
    Keeps S (report kind message range related) :=
  hS.accept fun file => { kind, message, file, range, related }

theorem reportFinding (finding : Finding) : Keeps S (reportFinding finding) :=
  hS.accept finding.toDiagnostic

theorem reportAll {findings : List Finding} : Keeps S (reportAll findings) :=
  .forM hS.reportFinding

theorem checkAll {kind : Kind} {findings : List Finding} (h : ∀ x ∈ findings, x.kind = kind) :
    Keeps S (whenChecked kind (WalkM.reportAll findings)) :=
  .whenChecked (reportsOnly_reportAll h) (reportsOnly_reportAll h) hS.reportAll

theorem withFindings (h : S w w') (ds : List Diagnostic) :
    S (withFindings ds w) (withFindings ds w') := by
  induction ds generalizing w w' with
  | nil => simpa [WalkM.withFindings] using h
  | cons d ds ih =>
    have hfirst := (hS.accept (fun _ => d) w w' h).2
    rw [changeFrame_accept, changeFrame_accept] at hfirst
    rw [← List.singleton_append, ← withFindings_append, ← withFindings_append]
    exact ih hfirst

/-! ## Scopes -/

theorem closeScope : Keeps S (closeScope scope) := by
  intro w w' h
  have hunused : (fun v => unusedFinding? (w'.store.variableAt v)) = fun v =>
      unusedFinding? (w.store.variableAt v) := by
    funext v
    obtain ⟨file, hfile⟩ := (hS.store h).variableAt v
    rw [hfile]
    rfl
  have hsame : unusedIn w' scope = unusedIn w scope := by
    rw [unusedIn, hunused, (hS.store h).localsOf, hS.frame h, unusedIn]
  rw [closeScope_apply, closeScope_apply, hsame]
  exact ⟨rfl, hS.withFindings h _⟩

theorem modifyFunction {f : Function → Function} (hf : ∀ x, (f x).rename ρ = f (x.rename ρ)) :
    Keeps S (WalkM.changeStore (·.modifyFunction function f)) :=
  hS.changeStore (fun _ _ h => h.modifyFunction hf) fun _ => .of_vars rfl

theorem withScope {kind : ScopeKind} (h : Agrees S m m') :
    Agrees S (withScope kind range m) (withScope kind range m') :=
  hS.frame_bind fun _ _ _ => .bind hS.addScope fun _ =>
    .bind (hS.modifyFunction fun _ => rfl) fun _ =>
    .bind (hS.changeFrame fun _ _ _ _ => rfl) fun _ => .bind h fun _ => .bind hS.closeScope fun _ =>
      .bind (hS.modifyFunction fun _ => rfl) fun _ => .bind (hS.changeFrame fun _ _ _ _ => rfl)
      fun _ => .pure

theorem withGuard {guard : NameSet} (h : Agrees S m m') :
    Agrees S (withGuard guard m) (withGuard guard m') :=
  .bind (hS.changeFrame fun _ _ _ _ => rfl) fun _ => .bind h fun _ =>
    .bind (hS.changeFrame fun _ _ _ _ => rfl) fun _ => .pure

theorem withSelfTarget {target : Option String} (h : Agrees S m m') :
    Agrees S (withSelfTarget target m) (withSelfTarget target m') :=
  hS.frame_bind fun _ _ _ => .bind (hS.changeFrame fun _ _ _ _ => rfl) fun _ => .bind h fun _ =>
    .bind (hS.changeFrame fun _ _ _ _ => rfl) fun _ => .pure

theorem mainScope : Keeps S (WalkM.ask fun s => (s.functionAt function).mainScope) :=
  hS.ask fun _ _ h => h.mainScope

theorem inFunction (h : Agrees S m m') :
    Agrees S (inFunction function m) (inFunction function m') :=
  hS.frame_bind fun _ _ _ => .bind hS.mainScope fun _ => .bind (hS.changeFrame fun _ _ _ _ => rfl)
    fun _ => .bind h fun _ =>
    .bind (hS.changeFrame fun _ _ _ _ => rfl) fun _ => .pure

theorem withChain {body body' : ScopeId → WalkM α}
    (h : ∀ chain, Agrees S (body chain) (body' chain)) :
    Agrees S (withChain body) (withChain body') :=
  hS.frame_bind fun _ _ _ =>
    .bind (hS.ask fun _ _ h => congrArg Scope.chainNarrowed h.scopeAt) fun _ =>
    .bind (hS.changeStore (fun _ _ h => h.modifyScope _) fun _ => .of_vars rfl) fun _ =>
    .bind (h _) fun _ =>
      .bind (hS.changeStore (fun _ _ h => h.modifyScope _) fun _ => .of_vars rfl) fun _ => .pure

/-! ## Declaring and changing variables -/

variable {v : Variable} {expected : String} {proven : NameSet} {values : List Exp}

theorem declareQuietly : Agrees S (declareQuietly v) (declareQuietly (v.rename ρ)) :=
  hS.frame_bind fun fr _ _ => .bind (hS.addVariable { v with owner := some fr.function }) fun _ =>
    .bind (hS.changeStore (fun _ _ h => h.declareLocal) fun _ => .declareLocal) fun _ => .pure

theorem declare : Agrees S (declare v) (declare (v.rename ρ)) :=
  .bind hS.declareQuietly fun _ => hS.notify

theorem modifyReference {id : ReferenceId} {f : Reference → Reference}
    (hf : ∀ r, (f r).withoutTarget = f r.withoutTarget) :
    Keeps S (WalkM.changeStore (·.modifyReference id f)) :=
  hS.changeStore (fun _ _ h => h.modifyReference hf) fun _ => .of_vars rfl

theorem bindReference {binding : Binding} : Keeps S (bindReference info binding) := by
  unfold WalkM.bindReference
  split
  · exact hS.modifyReference fun _ => rfl
  · exact .pure

theorem checkAssignedType : Keeps S (checkAssignedType name expected info range) := by
  refine .whenChecked reports_checkType reports_checkType
    (.bind (hS.ask fun _ _ h => h.typeOf?) fun type => ?_)
  split
  · exact .ite hS.report .pure
  · exact .pure

theorem checkWrite : Keeps S (checkWrite id name range info) := by
  refine hS.ask_bind fun s s' h => ?_
  obtain ⟨file, hfile⟩ := h.variableAt id
  rw [hfile]
  dsimp only
  cases (s.variableAt id).declaredType with
  | some expected => exact .ite (.bind hS.report fun _ => hS.checkAssignedType) hS.checkAssignedType
  | none => exact .ite (.bind hS.report fun _ => .pure) .pure

theorem clearNarrowing : Keeps S (WalkM.changeStore (·.clearNarrowing scope name)) :=
  hS.changeStore (fun _ _ h => h.clearNarrowing) fun _ => .clearNarrowing

theorem reassign : Keeps S (WalkM.changeStore (·.reassign id info)) :=
  hS.changeStore (fun _ _ h => h.reassign) fun _ => .reassign

theorem assignLocal : Keeps S (assignLocal id name range info statement) := by
  refine .bind hS.checkWrite fun _ =>
    .bind (hS.changeStore (fun _ _ h => h.modifyVariable fun v => ?_) fun _ => ?_) fun _ =>
    .bind hS.reassign fun _ => hS.frame_bind fun _ _ _ => .bind hS.clearNarrowing fun _ =>
    .bind hS.bindReference fun _ =>
      hS.notify
  · change Variable.rename ρ (if v.flags.used then v else _) = if v.flags.used then _ else _
    split <;> rfl
  · refine .modifyVariable fun v => ?_
    split
    · exact .refl
    · exact .of_eq rfl rfl rfl rfl

theorem assignGlobal : Keeps S (assignGlobal id name range info) :=
  .bind hS.checkWrite fun _ => .bind hS.reassign fun _ => hS.frame_bind fun _ _ _ =>
    .bind hS.clearNarrowing fun _ =>
    .bind (hS.changeFrame fun _ _ _ _ => rfl) fun _ => hS.notify

theorem addFrom {k k' : VariableId → WalkM α} (hk : ∀ id, Agrees S (k id) (k' id)) : Agrees S
      (WalkM.frame >>= fun f => WalkM.ask (·.variableFrom name f.file range info) >>= fun v =>
        add (·.addVariable v) >>= k)
      (WalkM.frame >>= fun f => WalkM.ask (·.variableFrom name f.file range info) >>= fun v =>
        add (·.addVariable v) >>= k') := by
  refine hS.frame_bind fun fr _ _ => hS.ask_bind fun s s' h => ?_
  rw [h.variableFrom]
  exact .bind (hS.addVariable _) hk

theorem setMember {owner : VariableId} : Keeps S (setMember owner key range info) := by
  refine .bind (hS.ask fun _ _ h => h.memberOf?) fun member => ?_
  split
  · exact hS.reassign
  · exact hS.addFrom fun id => hS.changeStore (fun _ _ h => h.modifyVariable fun _ => rfl) fun _ =>
      .insertMember

/-! ## Narrowed names -/

theorem currentBinding? (h : S w w') : currentBinding? w' name = currentBinding? w name := by
  unfold WalkM.currentBinding?
  rw [hS.frame h, (hS.store h).lookupLocal?, hS.globals h]

theorem checkMaybeNil : Keeps S (checkMaybeNil name range) := by
  rw [checkMaybeNil_eq]
  refine .whenChecked reports_checkNarrowed reports_checkNarrowed fun w w' h => ?_
  rw [checkNarrowed, bind_apply, bind_apply, get_apply, get_apply]
  dsimp only
  rw [hS.currentBinding? h, hS.frame h, (hS.store h).narrowed?]
  refine (?_ : Keeps S _) w w' h
  refine .ite .pure ?_
  cases w.store.narrowed? w.frame.scope name with
  | some v => exact .ite hS.report .pure
  | none => exact .pure

theorem checkIndexed {obj : Exp} : Keeps S (checkIndexed obj) := by
  unfold WalkM.checkIndexed
  split
  · exact hS.checkMaybeNil
  · exact .pure

theorem applyNarrowing : Keeps S (applyNarrowing chain proven) := by
  refine .get_bind fun w w' h => ?_
  simp only [hS.currentBinding? h, (hS.store h).scopeAt]
  rw [hS.frame h]
  refine hS.changeStore (fun _ _ h => Store.Twin.foldl (fun _ _ x h => ?_) h) fun _ =>
    .foldl (fun _ _ => ?_) _ _
  · exact h.narrow
  · exact .of_vars rfl

theorem narrowChain : Keeps S (narrowChain chain proven) := by
  refine .get_bind fun w w' h => ?_
  simp only [hS.currentBinding? h]
  exact hS.changeStore (fun _ _ h => h.modifyScope _) fun _ => .of_vars rfl

/-! ## Members, operands and calls -/

theorem memberInfo {owner : ValueInfo} : Keeps S (memberInfo owner key range) := by
  unfold WalkM.memberInfo
  cases owner.var with
  | none => exact .pure
  | some owner =>
    refine .bind (hS.ask fun _ _ h => h.memberOf?) fun member => ?_
    cases member with
    | some member => exact hS.ask fun _ _ h => h.infoOf
    | none =>
      exact .bind (.whenChecked reports_checkMember reports_checkMember hS.checkMember)
        fun _ => .pure

theorem checkOperand {op : BinOp} {operand : Exp} :
    Keeps S (checkOperand op expected operand info) := by
  have hcertain : ∀ s s' : Store, s.Twin ρ s' → certainType? s' info = certainType? s info := by
    intro s s' h
    unfold certainType?
    cases info.var with
    | none => rfl
    | some v =>
      obtain ⟨file, hfile⟩ := h.variableAt v
      simp only [Option.bind_some, hfile]
  refine .bind (hS.ask hcertain) fun type => ?_
  split
  · exact .ite hS.report .pure
  · exact .pure

theorem checkOperands {op : BinOp} {lhs rhs : Exp} {left right : ValueInfo} :
    Keeps S (checkOperands op lhs rhs left right) := by
  unfold WalkM.checkOperands
  split
  · refine .whenChecked ?_ ?_ (.bind hS.checkOperand fun _ => hS.checkOperand)
    all_goals exact .bind reports_checkOperand fun _ => reports_checkOperand
  · exact .pure

theorem checkArgument (hf : f'.types = f.types) {param : String} {i : Nat} {arg : Exp} :
    Agrees S (checkArgument f name param i arg info) (checkArgument f' name param i arg info) := by
  unfold WalkM.checkArgument
  rw [hf]
  refine .bind (hS.ask fun _ _ h => h.typeOf?) fun type => ?_
  split
  · exact .ite hS.report .pure
  · exact .pure

theorem checkArguments (hf : f'.types = f.types) (i : Nat) {params : List String}
    (args : List (Exp × ValueInfo)) :
    Agrees S (checkArguments f name i params args) (checkArguments f' name i params args) := by
  induction params generalizing i args with
  | nil =>
    simp only [WalkM.checkArguments]
    exact .pure
  | cons param params ih =>
    cases args with
    | nil =>
      simp only [WalkM.checkArguments]
      exact .pure
    | cons arg args =>
      simp only [WalkM.checkArguments]
      exact .bind (hS.checkArgument hf) fun _ => ih _ _

theorem checkCall {callee : ValueInfo} {args : List Exp} {isMethod : Bool} :
    Keeps S (checkCall callee name args infos isMethod range) := by
  refine .bind (hS.ask fun _ _ h => h.calleeOf?) fun id? => ?_
  cases id? with
  | none => exact .pure
  | some id =>
    refine hS.ask_bind fun s s' h => ?_
    obtain ⟨file, hfile⟩ := h.functionAt id
    rw [hfile]
    refine .bind (.ite .pure (.whenChecked ?_ ?_ (.ite hS.report .pure))) fun _ =>
      .ite .pure (.whenChecked (reports_checkArguments _ _) (reports_checkArguments _ _)
        (hS.checkArguments ?_ _ _))
    · exact .ite reportsOnly_kind .plain
    · exact .ite reportsOnly_kind .plain
    · rfl

/-! ## Functions -/

theorem createFunction {body : FunctionBody} {name : Option String} {hasColon : Bool}
    {types : Option FunctionTypes} : Keeps S (createFunction body name hasColon types) := by
  refine hS.frame_bind fun fr _ _ => .bind (hS.addFunction _) fun id => ?_
  split
  · exact .bind (hS.modifyFunction fun _ => rfl) fun _ => .pure
  · exact .pure

theorem declareSelf (hf : f'.colonVariable = f.colonVariable) :
    Agrees S (declareSelf f v) (declareSelf f' (v.rename ρ)) := by
  unfold WalkM.declareSelf
  rw [hf]
  split
  · refine hS.ask_bind fun s s' h => ?_
    obtain ⟨file, hfile⟩ := h.variableAt _
    rw [hfile]
    exact .map hS.declareQuietly
  · exact .map hS.declareQuietly

theorem declareParams {params : List Name} : Keeps S (declareParams function params) := by
  refine hS.frame_bind fun fr _ _ => hS.ask_bind fun s s' h => ?_
  obtain ⟨file, hfile⟩ := h.functionAt function
  rw [hfile]
  have hrest : ∀ rest : List Name, Agrees S
      (rest.forM fun p => WalkM.declare (paramVariable fr.file (s.functionAt function) p))
      (rest.forM fun p =>
        WalkM.declare (paramVariable (ρ fr.file) { s.functionAt function with file } p)) :=
    fun rest => .forM (fun p => hS.declare)
  cases params with
  | nil => exact .pure
  | cons first rest =>
    exact .ite (.bind (hS.declareSelf rfl) fun _ => hrest rest)
      (.bind hS.declare fun _ => hrest rest)

theorem finishFunction : Keeps S (finishFunction function) := by
  have hlost : ∀ s s' : Store, s.Twin ρ s' →
      ((s'.functionAt function).pendingGotos.filter
        (!isVisibleLabel s' (s'.functionAt function) ·)) =
        (s.functionAt function).pendingGotos.filter
        (!isVisibleLabel s (s.functionAt function) ·) := by
    intro s s' h
    obtain ⟨file, hfile⟩ := h.functionAt function
    unfold isVisibleLabel
    simp only [hfile, h.isDescendantOf]
  exact .bind (hS.ask hlost) fun lost => .bind (hS.modifyFunction fun _ => rfl) fun _ =>
    .bind (.forM (fun _ => hS.report)) fun _ => .bind hS.mainScope fun _ => hS.closeScope

theorem addGoto {label : Name} : Keeps S (addGoto label) :=
  hS.frame_bind fun _ _ _ => hS.modifyFunction fun _ => rfl

theorem addLabel {label : Name} : Keeps S (addLabel label) :=
  hS.frame_bind fun _ _ _ => hS.modifyFunction fun _ => rfl

theorem checkReturns (i : Nat) (types : List String) {values : List (Exp × ValueInfo)} :
    Keeps S (checkReturns i types values) := by
  induction values generalizing i types with
  | nil =>
    simp only [WalkM.checkReturns]
    exact .pure
  | cons value values ih =>
    cases types with
    | nil => exact .pure
    | cons expected types =>
      refine .bind (hS.ask fun _ _ h => h.typeOf?) fun actual => ?_
      cases actual with
      | none => exact ih _ _
      | some actual => exact .ite (.bind hS.report fun _ => ih _ _) (ih _ _)

theorem checkReturnTypes {types : List String} {values : List (Exp × ValueInfo)} :
    Keeps S (checkReturnTypes types values) :=
  .ite .pure (.whenChecked (reports_checkReturns _ _) (reports_checkReturns _ _)
    (hS.checkReturns _ _))

theorem returnedVariable {value : Exp} : Keeps S (returnedVariable value info) := by
  unfold WalkM.returnedVariable
  split
  · exact .pure
  · refine hS.frame_bind fun _ _ _ => hS.ask_bind fun s s' h => ?_
    rw [h.variableFrom]
    exact hS.addVariable _

theorem addReturn {ret : ReturnStat} : Keeps S (addReturn ret infos) := by
  have htypes : ∀ (id : FunctionId) (s s' : Store), s.Twin ρ s' →
      (s'.functionAt id).types.returns = (s.functionAt id).types.returns := by
    intro id s s' h
    obtain ⟨file, hfile⟩ := h.functionAt id
    rw [hfile]
  refine hS.frame_bind fun fr _ _ => .bind (hS.ask (htypes _)) fun types =>
    .bind hS.checkReturnTypes fun _ => ?_
  split
  · exact .bind hS.returnedVariable fun _ => .bind .pure fun _ => hS.modifyFunction fun _ => rfl
  · exact .bind .pure fun _ => hS.modifyFunction fun _ => rfl

theorem declareLocal {i : Nat} {declaredType : Option String} {constant : Bool} {n : LocalName} :
    Keeps S (declareLocal values infos i declaredType constant n) := by
  have halias : ∀ (scope : ScopeId) (value? : Option Exp) (s s' : Store), s.Twin ρ s' →
      aliasOf? s' scope value? = aliasOf? s scope value? := by
    intro scope value? s s' h
    unfold aliasOf?
    simp only [h.lookupLocal?]
  refine hS.frame_bind fun fr _ _ => hS.ask_bind fun s s' h =>
    .bind (hS.ask (halias _ _)) fun aliasOf => ?_
  rw [h.variableFrom]
  dsimp only
  split
  · refine .bind hS.checkAssignedType fun _ => .bind hS.declare fun _ => ?_
    dsimp only [Variable.rename]
    split
    · exact hS.modifyReference fun _ => rfl
    · exact .pure
  · refine .bind hS.declare fun _ => ?_
    dsimp only [Variable.rename]
    split
    · exact hS.modifyReference fun _ => rfl
    · exact .pure

theorem declareLocals {names : List LocalName} (i : Nat) (declaredType : Option String)
    (constant : Bool) : Keeps S (declareLocals values infos i declaredType constant names) := by
  induction names generalizing i declaredType constant with
  | nil => exact .pure
  | cons n names ih => exact .bind hS.declareLocal fun _ => ih _ _ _

theorem declareLoopVariable {name : Name} {kind : ValueKind} :
    Keeps S (declareLoopVariable name kind) :=
  hS.frame_bind fun _ _ _ => hS.declare

theorem readUndefined : Keeps S (readUndefined name range) :=
  .bind (hS.changeFrame fun _ _ _ _ => rfl) fun _ => hS.report

end Pairing

/-- Surroundings of two walks in which names and loads agree. -/
structure Paired (ρ : FileId → FileId) (S : Walk → Walk → Prop) (env env' : WalkEnv)
    (enter enter' : Enter) : Prop
    extends Pairing ρ S where
  lookup (name : String) : Agrees S (lookup env name) (lookup env' name)
  knownGlobal? (name : String) : Agrees S (knownGlobal? env name) (knownGlobal? env' name)
  knownRootGlobal? (name : String) :
    Agrees S (knownRootGlobal? env name) (knownRootGlobal? env' name)
  shareGlobal {name : String} {id : VariableId} :
    Agrees S (changeTables env (·.defineGlobal name id))
    (changeTables env' (·.defineGlobal name id))
  shareRootGlobal {name : String} {id : VariableId} :
    Agrees S (changeTables env (·.defineRootGlobal name id))
    (changeTables env' (·.defineRootGlobal name id))
  loadOf? {w w' : Walk} (func : Exp) (args : List Exp) : S w w' →
    loadOf? env' w' func args = loadOf? env w func args
  visitLoad {load : LoadKind} {module : String} {range : TextRange} :
    Agrees S (visitLoad env enter load module range) (visitLoad env' enter' load module range)

namespace Paired

variable {env env' : WalkEnv} {enter enter' : Enter} (hS : Paired ρ S env env' enter enter')
include hS

/-! ## Names -/

theorem readName : Agrees S (readName env name range) (readName env' name range) := by
  refine .bind (hS.lookup name) fun found => ?_
  have hinfo : ∀ id, Keeps S (ask (·.infoOf id)) := fun id => hS.ask fun _ _ h => h.infoOf
  cases found with
  | found id =>
    exact .bind (hS.changeStore (fun _ _ h => h.modifyVariable fun _ => rfl) fun _ =>
      .modifyVariable fun _ => .of_eq rfl rfl rfl rfl) fun _ => .bind hS.notify fun _ => hinfo id
  | tooEarly id origin =>
    have hrest : Keeps S (notify name range .read id >>= fun _ => ask (·.infoOf id)) :=
      .bind hS.notify fun _ => hinfo id
    exact hS.frame_bind fun _ _ _ => .ite (.bind hS.report fun _ => hrest) hrest
  | builtin => exact .bind hS.notifyUnbound fun _ => .pure
  | unresolved =>
    exact .bind hS.notifyUnbound fun _ => hS.frame_bind fun _ _ _ =>
      .ite (.bind hS.readUndefined fun _ => .pure) .pure

theorem defineGlobal :
    Agrees S (defineGlobal env name range info statement)
      (defineGlobal env' name range info statement) := by
  have hdefine : ∀ v : Variable, Agrees S
      (add (·.addVariable v) >>= fun id =>
        changeFrame (fun f => { f with globals := f.globals.insert name id }) >>= fun _ =>
        changeTables env (·.defineGlobal name id) >>= fun _ => notify name range .declaration id)
      (add (·.addVariable (v.rename ρ)) >>= fun id =>
        changeFrame (fun f => { f with globals := f.globals.insert name id }) >>= fun _ =>
        changeTables env' (·.defineGlobal name id) >>= fun _ =>
        notify name range .declaration id) :=
    fun v => .bind (hS.addVariable v) fun _ => .bind (hS.changeFrame fun _ _ _ _ => rfl) fun _ =>
      .bind hS.shareGlobal fun _ => hS.notify
  refine hS.frame_bind fun fr _ _ => hS.ask_bind fun s s' hs => ?_
  rw [hs.variableFrom]
  dsimp only
  cases fr.annotations.declaredType? statement.start.line with
  | some expected => exact .bind hS.checkAssignedType fun _ => hdefine _
  | none => exact hdefine _

theorem assignName : Agrees S (assignName env name range info statement)
    (assignName env' name range info statement) := by
  refine hS.frame_bind fun fr _ _ => .bind (hS.ask fun _ _ h => h.lookupLocal?) fun id? => ?_
  cases id? with
  | some id => exact hS.assignLocal
  | none =>
    refine .bind (hS.knownGlobal? name) fun id? => ?_
    cases id? with
    | some id => exact .bind hS.assignGlobal fun _ => hS.bindReference
    | none => exact .bind hS.defineGlobal fun _ => hS.bindReference

theorem assignRootGlobal :
    Agrees S (assignRootGlobal env name range info) (assignRootGlobal env' name range info) := by
  have hbind : ∀ (id : VariableId) (role : NameRole), Keeps S (changeFrame (fun f => { f with
        rootGlobals := f.rootGlobals.insertIfNew name id, globals :=
          f.globals.insertIfNew name id }) >>= fun _ =>
        bindReference info .toGlobal >>= fun _ => notify name range role id) :=
    fun id role => .bind (hS.changeFrame fun _ _ _ _ => rfl) fun _ =>
    .bind hS.bindReference fun _ => hS.notify
  refine .bind (hS.knownRootGlobal? name) fun id? => ?_
  cases id? with
  | some id => exact .bind hS.reassign fun _ => .bind .pure fun _ => hbind _ _
  | none =>
    refine hS.frame_bind fun fr _ _ => hS.ask_bind fun s s' hs => ?_
    rw [hs.variableFrom]
    exact .bind (hS.addVariable _) fun _ => .bind hS.shareRootGlobal fun _ =>
      .bind .pure fun _ => hbind _ _

variable {path : List Name}

theorem memberOwner? {base : Name} :
    Agrees S (memberOwner? env base path) (memberOwner? env' base path) :=
  .bind hS.readName fun _ => .bind hS.checkMaybeNil fun _ => hS.ask fun _ _ h => h.memberAlong?

theorem assignMember {base key : Name} :
    Agrees S (assignMember env base path key info) (assignMember env' base path key info) := by
  refine .ite (.bind (.map hS.readName) fun _ => hS.assignRootGlobal)
    (.bind hS.memberOwner? fun owner? => ?_)
  cases owner? with
  | some owner => exact hS.setMember
  | none => exact .pure

theorem assignFunction {name : FunctionName} :
    Agrees S (assignFunction env name function range)
      (assignFunction env' name function range) := by
  unfold WalkM.assignFunction
  split
  · exact hS.assignName
  · refine .ite (.bind (.map hS.readName) fun _ => hS.assignRootGlobal)
      (.bind hS.memberOwner? fun owner => ?_)
    split
    · exact .ite (.ite (.bind (hS.modifyFunction fun _ => rfl) fun _ => hS.setMember) hS.setMember)
        .pure
    · exact .pure

theorem readLoadFunction :
    Agrees S (readLoadFunction env name range) (readLoadFunction env' name range) :=
  .ite (.map hS.readName) hS.notifyUnbound

/-! ## Visitors -/

set_option linter.unusedSectionVars false

mutual

theorem visitExp : ∀ e : Exp, Agrees S (WalkM.visitExp env enter e) (WalkM.visitExp env' enter' e)
  | .nil _ | .bool _ _ | .vararg _ | .number _ _ | .string _ _ => .pure
  | .name range text => hS.readName
  | .function _ body =>
    hS.frame_bind fun _ _ _ => .bind hS.createFunction fun id =>
      .bind (visitFunctionBody id body) fun _ => .pure
  | .table range fields =>
    .bind (hS.checkAll (Check.kind_duplicateKeys _)) fun _ =>
      .bind (.whenChecked reports_checkEnum reports_checkEnum
        (hS.frame_bind fun _ _ _ => .ite hS.reportAll .pure)) fun _ =>
      .bind (visitFields fields {}) fun _ => hS.frame_bind fun _ _ _ =>
      .bind (hS.addVariable _) fun _ => .pure
  | .index _ obj key _ => by
    refine .bind (visitExp obj) fun owner => .bind hS.checkIndexed fun _ => ?_
    split
    · exact hS.memberInfo
    · exact .bind (.map (visitExp key)) fun _ => .pure
  | .call range func args => by
    refine .get_bind fun w w' hw => ?_
    rw [hS.loadOf? func args hw]
    split
    · exact .bind hS.readLoadFunction fun _ => .bind (.map (visitExps args)) fun _ =>
        hS.visitLoad
    · exact .bind (visitExp func) fun _ => .bind (visitExps args) fun _ =>
        .bind hS.checkCall fun _ => hS.ask fun _ _ hs => hs.callResult
  | .methodCall range obj method args =>
    .bind (visitExp obj) fun _ => .bind hS.checkIndexed fun _ =>
      .bind hS.memberInfo fun _ => .bind (visitExps args) fun _ =>
        .bind hS.checkCall fun _ => hS.ask fun _ _ hs => hs.callResult
  | .binary range op lhs rhs => by
    refine .bind hS.reportAll fun _ => .bind (visitExp lhs) fun left => ?_
    split
    · exact .bind (hS.withGuard (visitExp rhs)) fun _ =>
        .bind hS.checkOperands fun _ => .pure
    · exact .bind (hS.withGuard (visitExp rhs)) fun _ =>
        .bind hS.checkOperands fun _ => .pure
    · exact .bind (visitExp rhs) fun _ => .bind hS.checkOperands fun _ => .pure
  | .unary _ op operand => .bind (.map (visitExp operand)) fun _ => .pure
  | .paren _ e => visitExp e

theorem visitExps :
    ∀ es : List Exp, Agrees S (WalkM.visitExps env enter es) (WalkM.visitExps env' enter' es)
  | [] => .pure
  | e :: es => .bind (visitExp e) fun _ => .bind (visitExps es) fun _ => .pure

theorem visitFields : ∀ (fields : List Field) (members : OrderedMap String VariableId),
      Agrees S (WalkM.visitFields env enter fields members)
        (WalkM.visitFields env' enter' fields members)
  | [], members => .pure
  | .named key value :: rest, members => .bind (visitExp value) fun _ => hS.addFrom fun _ =>
    visitFields rest _
  | .keyed key value :: rest, members => by
    refine .bind (.map (visitExp key)) fun _ => .bind (visitExp value) fun _ => ?_
    split
    · exact hS.addFrom fun _ => visitFields rest _
    · exact visitFields rest members
  | .positional value :: rest, members => .bind (.map (visitExp value)) fun _ =>
    visitFields rest members

theorem visitFunctionBody (id : FunctionId) :
    ∀ body : FunctionBody, Agrees S (WalkM.visitFunctionBody env enter id body)
      (WalkM.visitFunctionBody env' enter' id body)
  | ⟨_, _, _, block⟩ =>
    .bind (hS.checkAll (Check.kind_duplicateParams _)) fun _ => hS.inFunction <|
    .bind hS.declareParams fun _ =>
      .bind (visitBlock block) fun _ => hS.finishFunction

theorem visitBlock :
    ∀ b : Block, Agrees S (WalkM.visitBlock env enter b) (WalkM.visitBlock env' enter' b)
  | ⟨_, stats, ret⟩ => .bind (visitStats stats) fun _ => visitReturn? ret

theorem visitReturn? :
    ∀ ret : Option ReturnStat, Agrees S (WalkM.visitReturn? env enter ret)
      (WalkM.visitReturn? env' enter' ret)
  | none => .pure
  | some ret => visitReturn ret

theorem visitReturn : ∀ ret : ReturnStat, Agrees S (WalkM.visitReturn env enter ret)
    (WalkM.visitReturn env' enter' ret)
  | ⟨_, values⟩ => .bind (visitExps values) fun _ => hS.addReturn

theorem visitStats : ∀ stats : List Stat, Agrees S (WalkM.visitStats env enter stats)
    (WalkM.visitStats env' enter' stats)
  | [] => .pure
  | s :: ss => .bind (visitStat s) fun _ => visitStats ss

theorem visitStat :
    ∀ s : Stat, Agrees S (WalkM.visitStat env enter s) (WalkM.visitStat env' enter' s)
  | .empty _ | .breakLoop _ => .pure
  | .locals _ _ values =>
    .bind (hS.withSelfTarget (visitExps values)) fun _ =>
    .bind (hS.checkAll (Check.kind_valueCountMismatch _ _ _)) fun _ =>
      hS.frame_bind fun _ _ _ => hS.declareLocals _ _ _
  | .localFunction _ _ body =>
    hS.frame_bind fun _ _ _ => .bind hS.createFunction fun id => .bind hS.declare fun _ =>
      visitFunctionBody id body
  | .function _ _ body =>
    hS.frame_bind fun _ _ _ => .bind hS.createFunction fun id =>
      .bind hS.assignFunction fun _ => visitFunctionBody id body
  | .assign range targets values =>
    .bind (hS.withSelfTarget (visitExps values)) fun _ =>
    .bind (hS.checkAll (Check.kind_valueCountMismatch _ _ _)) fun _ =>
      .bind (hS.checkAll (Check.kind_selfAssignments _ _)) fun _ => visitTargets _ range 0 targets
  | .call _ e => .map (visitExp e)
  | .doBlock _ block => hS.withScope (visitBlock block)
  | .whileLoop _ cond block => .bind (.map (visitExp cond)) fun _ => hS.withScope (visitBlock block)
  | .repeatLoop _ block cond =>
    hS.withScope (.bind (visitBlock block) fun _ => .map (visitExp cond))
  | .ifChain _ clauses orElse =>
    .bind (hS.checkAll (Check.kind_duplicateConditionsAfter _)) fun _ => hS.withChain fun chain =>
      .bind (visitClauses chain clauses) fun _ => visitElse chain orElse
  | .numericFor _ _ first limit step block =>
    .bind (.map (visitExp first)) fun _ => .bind (.map (visitExp limit)) fun _ =>
      .bind (visitExp? step) fun _ => hS.withScope <|
        .bind hS.declareLoopVariable fun _ => visitBlock block
  | .genericFor _ _ values block =>
    .bind (.map (visitExps values)) fun _ => hS.withScope <|
      .bind (.forM (fun _ => hS.declareLoopVariable)) fun _ => visitBlock block
  | .goto _ _ => hS.addGoto
  | .label _ _ => hS.addLabel

theorem visitExp? :
    ∀ e? : Option Exp, Agrees S (WalkM.visitExp? env enter e?) (WalkM.visitExp? env' enter' e?)
  | none => .pure
  | some e => .map (visitExp e)

theorem visitTargets (valueFor : Nat → ValueInfo) (statement : TextRange) :
    ∀ (i : Nat) (targets : List Exp),
      Agrees S (WalkM.visitTargets env enter valueFor statement i targets)
        (WalkM.visitTargets env' enter' valueFor statement i targets)
  | _, [] => .pure
  | i, e :: ts => by
    have hmore := visitTargets valueFor statement (i + 1) ts
    cases e with
    | name range text => exact .bind hS.assignName fun _ => hmore
    | index range obj key dotted =>
      simp only [WalkM.visitTargets]
      split
      · exact .bind hS.assignMember fun _ => hmore
      · exact .bind (.map (visitExp obj)) fun _ => .bind hS.checkIndexed fun _ =>
          .bind (.map (visitExp key)) fun _ => hmore
    | _ => exact .bind (.map (visitExp _)) fun _ => hmore

theorem visitClauses (chain : ScopeId) :
    ∀ clauses : List Clause, Agrees S (WalkM.visitClauses env enter chain clauses)
      (WalkM.visitClauses env' enter' chain clauses)
  | [] => .pure
  | ⟨cond, block⟩ :: rest =>
    .bind (.map (visitExp cond)) fun _ =>
      .bind (hS.withScope (.bind hS.applyNarrowing fun _ => visitBlock block)) fun _ =>
        .bind hS.narrowChain fun _ => visitClauses chain rest

theorem visitElse (chain : ScopeId) :
    ∀ block? : Option Block, Agrees S (WalkM.visitElse env enter chain block?)
      (WalkM.visitElse env' enter' chain block?)
  | none => .pure
  | some block => hS.withScope (.bind hS.applyNarrowing fun _ => visitBlock block)

end

theorem walkTree {chunk : Chunk} :
    Agrees S (walkTree env enter chunk function) (walkTree env' enter' chunk function) :=
  .bind (hS.visitBlock chunk.block) fun _ => hS.finishFunction

end Paired

end LuaAnalysis.WalkM
