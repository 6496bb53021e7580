import LuaAnalysis.Proofs.Walk.File
import LuaAnalysis.Proofs.Walk.SoundSteps

/-!
# Visitors of sound walks

Every visitor passes to a sound state from every sound state inside a file, and what it tells about
a value holds numbers of the store only. Scopes and functions are walked at another place, and the
walk comes back from there.
-/

namespace LuaAnalysis.WalkM

open Store

variable {α : Type} [HoldsIds α] {l : Leeway} {b w : Walk} {env : WalkEnv} {enter : Enter}
  {m body : WalkM α}

/-! ## Brackets -/

/-- A computation in a changed frame that is put back; position and tables are the same throughout.
-/
theorem safe_reframed (hm : Safe l b m) {f : Frame → Frame} {g : Frame → Frame → Frame}
    (hinto : ∀ x, (f x).position = x.position ∧ (f x).held = x.held)
    (hback : ∀ x y, (g x y).position = y.position ∧ (g x y).held = y.held)
    (hplace : ∀ x y, y.place = (f x).place → (g x y).place = x.place) :
    Safe l b (do
      let outer ← frame
      changeFrame f
      let result ← m
      changeFrame (g outer)
      return result) := by
  refine .of_run fun w hw => ?_
  obtain ⟨hposition, hheld⟩ := hinto w.frame
  have hpass := hw.passes_reframe hposition hheld
  have hin := hw.trans (hw.of_passes hpass hposition)
  have hrestores := hm.restores _ hin
  obtain ⟨hposition', hheld'⟩ := hback w.frame (m { w with frame := f w.frame }).2.frame
  have hout := (hm.after hin).passes_reframe hposition' hheld'
  refine ⟨(hpass.trans (hm.passes _ hin)).trans hout, ?_, hm.gives _ hin⟩
  refine hrestores.between .refl (fun id _ p hp => ?_) rfl hrestores.functions
    (hplace _ _ hrestores.place)
    hrestores.active hrestores.loadSites
  have hscope : (f w.frame).scope = w.frame.scope := congrArg Prod.snd hposition
  rw [← hscope]
  exact hp

theorem safe_withGuard {guard : NameSet} (hm : Safe l b m) : Safe l b (withGuard guard m) := by
  have hplace : ∀ x y : Frame, y.place = { x.place with guards := guard :: x.guards } →
      { y.place with guards := y.guards.tail } = x.place :=
    fun _ _ h => congrArg (fun p : Frame => { p with guards := p.guards.tail }) h
  exact safe_reframed hm (f := fun x => { x with guards := guard :: x.guards })
    (g := fun _ y => { y with guards := y.guards.tail }) (fun _ => ⟨rfl, rfl⟩)
    (fun _ _ => ⟨rfl, rfl⟩) hplace

theorem safe_withSelfTarget {target : Option String} (hm : Safe l b m) :
    Safe l b (withSelfTarget target m) :=
  safe_reframed hm (g := fun x y => { y with selfTarget := x.selfTarget }) (fun _ => ⟨rfl, rfl⟩)
    (fun _ _ => ⟨rfl, rfl⟩)
    fun x _ h => congrArg (fun p : Frame => { p with selfTarget := x.selfTarget }) h

/-- The state with the names of a chain set to `known`. -/
def inChain (scope : ScopeId) (known : OrderedMap String VariableId) (w : Walk) : Walk :=
  { w with store := w.store.modifyScope scope ({ · with chainNarrowed := known }) }

omit [HoldsIds α] in
theorem withChain_apply {body : ScopeId → WalkM α} :
    withChain body w =
      let (a, w') := body w.frame.scope (inChain w.frame.scope {} w)
      (a, inChain w.frame.scope (w.store.scopeAt w.frame.scope).chainNarrowed w') := rfl

theorem safe_withChain {body : ScopeId → WalkM α}
    (hbody : ∀ b', b.After b' → Safe (.only .chain) b' (body b'.frame.scope)) :
    Safe l b (withChain body) := by
  have hall : Safe (.only .chain) b (withChain body) := by
    refine .frame_bind fun b₁ hb₁ => .ask_bind fun b₂ hb₂ => ?_
    have houter := (hb₂.sound.store.closed.scopes _ (hb₂.owns hb₁.isOpen.scope)).chainNarrowed
    refine .seq (safe_changeChain hb₂.scope_eq.symm fun _ _ _ _ => owns_empty) fun _ => ?_
    exact .bind ((hbody b₁ hb₁).later hb₂) fun a b₃ hb₃ ha =>
      .seq (safe_changeChain (hb₂.trans hb₃).scope_eq.symm
      fun w _ hw _ => hw.owns (hb₃.owns houter)) fun _ => .held ha
  refine { hall with restores := fun w hw => (hall.restores w hw).of_chain ?_ }
  have hsize := (hall.restores w hw).size_le
  rw [withChain_apply] at hsize ⊢
  generalize body w.frame.scope (inChain w.frame.scope {} w) = r at hsize ⊢
  obtain ⟨a, w₁⟩ := r
  have hback := Store.scopeAt_modifyScope w₁.store w.frame.scope w.frame.scope
    ({ · with chainNarrowed := (w.store.scopeAt w.frame.scope).chainNarrowed })
  rw [if_pos ⟨rfl, Nat.lt_of_lt_of_le hw.isOpen.scope (by simpa [inChain] using hsize)⟩] at hback
  have hchain := congrArg Scope.chainNarrowed hback
  exact hchain

theorem passes_changeDepth (hw : w.Sound) {function : FunctionId}
    (hfunction : w.store.Owns function) (f : Nat → Nat) :
    w.Passes (changeDepth function f w).2 := by
  have howned := hw.store.closed.functions function hfunction
  exact hw.passes_store (hw.store.passes_modifyFunction (fun _ => rfl) { howned with })

variable {range site : TextRange} {kind : ScopeKind} {target : FileId} {value : Option VariableId}
  {load : LoadKind}
  {reference : ReferenceId} {module name : String}

theorem passes_insideScope (hw : b.After w) :
    w.Passes (insideScope kind range w) ∧ (insideScope kind range w).Open := by
  have horiginal : (w.store.scopeAt w.frame.scope).function ∉ w.store.importedFunctions.values := by
    rw [hw.isOpen.own]
    exact hw.isOpen.original
  have hadd : w.Passes (scopeOpened kind range w) :=
    hw.sound.passes_store
    (hw.sound.store.passes_addScope hw.isOpen.scope hw.isOpen.function horiginal)
  have hopened := hw.of_passes hadd rfl
  have hdepth := passes_changeDepth hopened.sound (hopened.owns hw.isOpen.function) (· + 1)
  have hcounted := hopened.of_passes hdepth rfl
  have hnew : (scopeOpened kind range w).store.Owns (nextScope w) :=
    (gains_addScope (owns_some.2 hw.isOpen.scope)).owns_iff.2 (.inr rfl)
  have hinside := hadd.trans hdepth
  have hfunction := hinside.retains.owns hw.isOpen.function
  refine ⟨hinside.trans (hcounted.sound.passes_place hfunction (hcounted.owns hnew) rfl), ?_⟩
  refine ⟨hfunction, hcounted.owns hnew, ?_, hcounted.isOpen.original⟩
  exact congrArg Scope.function
    (((scopeAt_addScope w.store kind _ _ range (owns_some.2 hw.isOpen.scope) _)).trans (if_pos rfl))

/-- The body may change its own scope as it likes; the outer one only gets a child. -/
theorem safe_withScope (hbody : ∀ b', b'.After b' → b.store.Retains b'.store → Safe .all b' body) :
    Safe l b (withScope kind range body) := by
  refine .of_run fun w hw => ?_
  obtain ⟨hinside, hopen⟩ := passes_insideScope hw
  have hin := Walk.After.refl (hinside.sound) hopen
  have hm := hbody _ hin (hw.retains.trans hinside.retains)
  have hafter := hm.after hin
  have hgiven := hm.gives _ hin
  have hrestores := hm.restores _ hin
  have hpass := hinside.trans (hm.passes _ hin)
  rw [withScope_apply]
  generalize body (insideScope kind range w) = r at hafter hgiven hpass hrestores
  have hclose : Safe .nothing r.2 (closeScope (nextScope w)) := safe_closeScope
  have hclosed := hclose.after hafter.here
  have hdepth :=
    passes_changeDepth hclosed.sound (hclosed.owns (hpass.retains.owns hw.isOpen.function)) (· - 1)
  have hleft := hclosed.of_passes hdepth rfl
  have hback := (hpass.trans (hclose.passes r.2 hafter.here)).trans hdepth
  refine ⟨hback.trans
    (hleft.sound.passes_place hleft.isOpen.function (hback.retains.owns hw.isOpen.scope) rfl), ?_,
    (hclosed.trans hleft).owns hgiven⟩
  rw [outsideScope, leaveScope, bind_apply, closeScope_apply]
  refine hrestores.between (w.store.grows_addScope kind (some w.frame.scope) w.frame.function range)
    (fun id hid p hp => ?_)
    rfl hrestores.functions.depths_around
      (congrArg (fun p : Frame => { p with scope := w.frame.scope }) hrestores.place)
    hrestores.active hrestores.loadSites
  exact absurd (congrArg ScopeId.index hp) (Nat.ne_of_lt hid)

/-- Likewise for the body of a function, which may change the function as well. -/
theorem safe_inFunction {id : FunctionId} (hid : b.store.IsOriginal id)
    (hbody : ∀ b', b'.After b' → b.store.Retains b'.store → Safe .all b' body) :
    Safe (.besides id l) b (inFunction id body) := by
  refine .of_run fun w hw => ?_
  have howned := hw.owns hid.1
  have hscope := hw.sound.store.mainScope_owned howned
  have hmain := hw.sound.store.rooted.main id howned
  have hinside : w.Passes (insideFunction id w) := hw.sound.passes_place howned hscope rfl
  have hopen : (insideFunction id w).Open :=
    ⟨howned, hscope, hmain, fun hcopy => hid.2 (hw.retains.originals id hid.1 hcopy)⟩
  have hin := Walk.After.refl (hinside.sound) hopen
  have hm := hbody _ hin (hw.retains.trans hinside.retains)
  have hpass := hinside.trans (hm.passes _ hin)
  have hrestores := hm.restores _ hin
  rw [inFunction_apply]
  refine ⟨hpass.trans ((hm.after hin).sound.passes_place (hpass.retains.owns hw.isOpen.function)
    (hpass.retains.owns hw.isOpen.scope) rfl), ?_, hm.gives _ hin⟩
  refine hrestores.between .refl (fun x _ _ hx => .inl ?_) rfl hrestores.functions
    (place_outsideFunction hrestores.place rfl) hrestores.active hrestores.loadSites
  obtain rfl : x = (w.store.functionAt id).mainScope := hx
  exact hmain

theorem safe_createFunction_bind {body : FunctionBody} {name : Option String} {hasColon : Bool}
    {types : Option FunctionTypes} {f : FunctionId → WalkM α}
    (hf : ∀ id b', b.After b' → b'.store.IsOriginal id → Safe (.besides id l) b' (f id)) :
    Safe l b (createFunction body name hasColon types >>= f) := by
  have hcreate : Gives l IsOriginal b (createFunction body name hasColon types) :=
    gives_createFunction
  refine .of_run fun w hw => ?_
  have hafter := hcreate.after hw
  have hrest := hf _ _ (hw.trans hafter) (hcreate.gives w hw)
  have hrestores := hcreate.restores w hw
  refine ⟨(hcreate.passes w hw).trans (hrest.passes _ hafter.here),
    hrestores.trans_of_frees (hrest.restores _ hafter.here) fun x hx _ hp =>
    hp.resolve_left fun hnew => ?_, hrest.gives _ hafter.here⟩
  have hlt := (hw.sound.store.closed.scopes x hx).function
  have hid : (createFunction body name hasColon types w).1 = nextFunction w := by
    cases types <;> rfl
  rw [← (hrestores.scopes x hx).function, hnew, hid] at hlt
  exact Nat.lt_irrefl _ hlt

/-! ## Loads -/

/-- A way to enter files that stays sound and puts everything back. -/
def Enter.Sound (enter : Enter) : Prop :=
  ∀ f w, w.Sound → StaysSound (enter f) w ∧ Restores .nothing w (enter f w).2

theorem safe_enter (he : enter.Sound) : Safe .nothing b (enter target) :=
  .of_run fun w hw =>
    ⟨(he target w hw.sound).1.1, (he target w hw.sound).2, (he target w hw.sound).1.2.2⟩

theorem safe_withLoadSite (hm : Safe .nothing b m) : Safe l b (withLoadSite site m) := by
  refine .of_run fun w hw => ?_
  have hpass : w.Passes (waiting w site) := hw.sound.passes_rest
  have hin := hw.trans (hw.of_passes hpass rfl)
  have h := hm.restores _ hin
  rw [withLoadSite_apply]
  refine ⟨(hpass.trans (hm.passes _ hin)).trans ((hm.after hin).sound.passes_rest), ?_,
    hm.gives _ hin⟩
  exact h.between .refl (fun _ _ _ => False.elim) rfl h.functions h.place h.active
    (congrArg List.tail h.loadSites)

theorem safe_resultOf (he : enter.Sound) : Safe l b (resultOf env enter target site) := by
  refine .get_bind fun w hw => ?_
  split
  · next r hr => exact .held (owns_some.2 (hw.sound.tables.files.get? r hr))
  · refine .bind (safe_withLoadSite (safe_enter he)) fun r? b' _ hr => ?_
    split
    · next r =>
      have hr := owns_some.1 hr
      refine .seq (.changeTables fun w hw => ?_) fun _ => .held (owns_some.2 hr)
      exact { hw.sound.tables with files := hw.sound.tables.files.insert (hw.owns hr) }
    · exact .held owns_none

theorem safe_remember (hvalue : b.store.Owns value) : Safe l b (remember target load value) := by
  have hinsert : Safe l b
    (modify fun w => { w with loaded := w.loaded.insert (target, load) value } : WalkM PUnit) :=
    ⟨fun _ hw => hw.sound.passes_loaded (hw.sound.loaded.insert (hw.owns hvalue)),
      fun _ _ => .of_grows .refl .refl rfl rfl rfl, fun _ _ => trivial⟩
  exact .seq hinsert fun _ => .held hvalue

/-- The value of a load is remembered with numbers of this store. -/
theorem safe_moduleValue (h : env.firstPass.Sound) (he : enter.Sound) (load : LoadKind) :
    Safe l b (moduleValue env enter reference target load) := by
  refine .get_bind fun w hw => ?_
  split
  · next value hvalue => exact .held (hw.sound.loaded.get? value hvalue)
  · split
    · exact safe_remember owns_none
    · refine .ite (.seq safe_modifyReference fun _ => .held owns_none) ?_
      refine .bind (safe_resultOf he) fun r? b' _ hr => ?_
      split
      · next r =>
        refine .bind (.add (fun _ hw => hw.sound.store.passes_bindModule (hw.owns (owns_some.1 hr)))
          fun _ _ => ?_)
          fun _ _ _ hvalue => safe_remember hvalue
        rw [bindModule]
        split <;> exact .of_eq rfl rfl
      · exact .held owns_none
    all_goals
      split
      · next a ha =>
        obtain ⟨hstore, hresult⟩ := h a (List.mem_of_find?_eq_some ha)
        exact .bind (.add (fun _ hw => hw.sound.store.passes_importModule hstore hresult) fun _ _ =>
          .of_rests (copiesFrom_importModule _ load a).rests) fun _ _ _ hvalue =>
          safe_remember hvalue
      · exact safe_remember owns_none

theorem safe_loadedInfo (load : LoadKind) (href : b.store.Owns reference)
    (hvalue : b.store.Owns value) : Safe l b (loadedInfo load reference value) := by
  unfold loadedInfo
  split
  · next v =>
    refine .ask fun w hw => ?_
    exact { hw.sound.store.infoOf_owned (hw.owns (owns_some.1 hvalue)) with
      reference := owns_some.2 (hw.owns href) }
  · exact .pure fun w hw => ⟨owns_none, owns_none, owns_some.2 (hw.owns href)⟩

theorem safe_addReference {r : Reference} : Safe l b (add (·.addReference r)) :=
  .add (fun w hw => ⟨hw.sound.store.passes_addReference, owns_addReference w.store⟩) fun _ _ =>
    .of_eq rfl rfl

theorem safe_visitLoad (h : env.firstPass.Sound) (he : enter.Sound) :
    Safe l b (visitLoad env enter load module range) := by
  refine .bind safe_addReference fun reference b' _ href => ?_
  refine .seq (.changeFrame fun w hw =>
    ⟨{ hw.sound.frame with place := .inr hw.placed, references := ?_ }, rfl⟩)
    fun _ => ?_
  · exact hw.sound.frame.references.snoc (hw.owns href)
  dsimp only
  split
  · exact .ite (.seq safe_report fun _ => safe_loadedInfo load href owns_none)
      (safe_loadedInfo load href owns_none)
  · refine .bind (safe_moduleValue h he load) fun value b₂ hb₂ hvalue =>
      .ask_bind fun b₃ hb₃ => ?_
    have hinfo : Safe l b₃ _ := safe_loadedInfo load (hb₃.owns (hb₂.owns href)) (hb₃.owns hvalue)
    exact .ite (.seq (.get_bind fun _ _ => safe_report) fun _ => hinfo) hinfo

theorem safe_readLoadFunction (h : env.firstPass.Sound) :
    Safe l b (readLoadFunction env name range) :=
  .ite (.discard (safe_readName h)) safe_notifyUnbound

/-! ## Values of operations -/

variable {s : Store}

theorem binaryInfo_owned {op : BinOp} {left right : ValueInfo} (hleft : s.Owns left)
    (hright : s.Owns right) : s.Owns (binaryInfo op left right) := by
  unfold binaryInfo
  split
  · exact hright
  · split
    · exact hright
    · split
      · exact hleft
      · exact owns_unknown
  · exact owns_ofKind
  · split <;> exact owns_ofKind

theorem unaryInfo_owned {op : UnOp} : s.Owns (unaryInfo op) := by
  cases op <;> exact owns_ofKind

theorem safe_callResult {callee : ValueInfo} : Safe l b (ask (·.callResult callee)) := by
  refine .ask fun w _ => ?_
  unfold callResult
  split
  · exact owns_ofKind
  · exact owns_unknown

/-! ## Visitors -/

theorem safe_addField {info : ValueInfo} (hinfo : b.store.Owns info) {rest : VariableId → WalkM α}
    (hrest : ∀ id b', b.After b' → b'.store.Owns id → Safe l b' (rest id)) :
    Safe l b (do
      let file := (← frame).file
      let v ← ask (·.variableFrom name file range info)
      let id ← add (·.addVariable v)
      rest id) := by
  refine .frame_bind fun b₁ hb₁ => .ask_bind fun b₂ hb₂ => ?_
  have hv := hb₂.sound.store.variableFrom_owned (hb₂.owns (hb₁.owns hinfo)) name b₁.frame.file range
  exact .bind (gives_addVariable hv (scope_variableFrom _ _ _ _ _)) fun id b₃ hb₃ hid =>
    hrest id b₃ ((hb₁.trans hb₂).trans hb₃) hid.1

section

set_option linter.unusedSectionVars false

variable (h : env.firstPass.Sound) (he : enter.Sound)
include h he

mutual

/-- By induction on the tree, together with the visitors below. -/
theorem safe_visitExp {l : Leeway} : ∀ (e : Exp) (b : Walk), Safe l b (visitExp env enter e)
  | .nil _, _ | .bool _ _, _ | .vararg _, _ | .number _ _, _ | .string _ _, _ =>
    .pure fun _ _ => ⟨owns_none, owns_none, owns_none⟩
  | .name range text, _ => safe_readName h
  | .function _ body, _ => by
    refine .frame_bind fun _ _ => safe_createFunction_bind fun id b' _ hid => ?_
    exact .seq (safe_visitFunctionBody id body b' hid) fun _ =>
      .pure fun w hw => ⟨owns_none, owns_some.2 (hw.owns hid.1), owns_none⟩
  | .table range fields, _ => by
    refine .seq (safe_whenChecked safe_reportAll) fun _ =>
      .seq (safe_of_reports reports_checkEnum.whenChecked) fun _ => ?_
    refine .bind (safe_visitFields fields {} _ owns_empty) fun members b₂ _ hmembers =>
      .frame_bind fun b₃ hb₃ => ?_
    exact .bind (gives_addVariable
      ⟨owns_none, owns_none, owns_none, owns_none, hb₃.owns hmembers⟩ rfl)
      fun id b₄ _ hid => .pure fun w hw => ⟨owns_some.2 (hw.owns hid.1), owns_none, owns_none⟩
  | .index _ obj key _, _ => by
    refine .seq (safe_visitExp obj _) fun owner => .seq safe_checkIndexed fun _ => ?_
    split
    · exact safe_memberInfo
    · exact .seq (.discard (safe_visitExp key _)) fun _ => .pure fun _ _ => owns_unknown
  | .call range func args, _ => by
    refine .get_bind fun w _ => ?_
    split
    · exact .seq (safe_readLoadFunction h) fun _ => .seq (.discard (safe_visitExps args _)) fun _ =>
        safe_visitLoad h he
    · exact .seq (safe_visitExp func _) fun _ => .seq (safe_visitExps args _) fun _ =>
        .seq (safe_of_reports reports_checkCall) fun _ => safe_callResult
  | .methodCall range obj method args, _ =>
    .seq (safe_visitExp obj _) fun _ => .seq safe_checkIndexed fun _ =>
      .seq safe_memberInfo fun _ => .seq (safe_visitExps args _) fun _ =>
        .seq (safe_of_reports reports_checkCall) fun _ => safe_callResult
  | .binary range op lhs rhs, _ => by
    refine .seq safe_reportAll fun _ => .bind (safe_visitExp lhs _) fun left b₁ _ hleft => ?_
    have hrest : ∀ m : WalkM ValueInfo, Safe l b₁ m → Safe l b₁ (m >>= fun right =>
        checkOperands op lhs rhs left right >>= fun _ => pure (binaryInfo op left right)) :=
        fun m hm =>
      .bind hm fun right b₂ hb₂ hright => .seq (safe_of_reports reports_checkOperands) fun _ =>
        .held (binaryInfo_owned (hb₂.owns hleft) hright)
    split
    · exact hrest _ (safe_withGuard (safe_visitExp rhs _))
    · exact hrest _ (safe_withGuard (safe_visitExp rhs _))
    · exact hrest _ (safe_visitExp rhs _)
  | .unary _ op operand, _ => .seq (.discard (safe_visitExp operand _)) fun _ => .pure fun _ _ =>
    unaryInfo_owned
  | .paren _ e, _ => safe_visitExp e _

theorem safe_visitExps {l : Leeway} :
    ∀ (es : List Exp) (b : Walk), Safe l b (visitExps env enter es)
  | [], _ => .held owns_nil
  | e :: es, _ =>
    .bind (safe_visitExp e _) fun _ _ _ hinfo => .bind (safe_visitExps es _) fun _ _ hb hinfos =>
      .held (owns_cons.2 ⟨hb.owns hinfo, hinfos⟩)

theorem safe_visitFields {l : Leeway} :
    ∀ (fields : List Field) (members : OrderedMap String VariableId) (b : Walk),
      b.store.Owns members →
      Safe l b (visitFields env enter fields members)
  | [], members, _, hmembers => .held hmembers
  | .named key value :: rest, members, _, hmembers =>
    .bind (safe_visitExp value _) fun _ _ hb hinfo => safe_addField hinfo fun _ _ hb' hid =>
      safe_visitFields rest _ _ ((hb'.owns (hb.owns hmembers)).insert hid)
  | .keyed key value :: rest, members, _, hmembers => by
    refine .seq (.discard (safe_visitExp key _)) fun _ =>
      .bind (safe_visitExp value _) fun _ _ hb hinfo => ?_
    split
    · exact safe_addField hinfo fun _ _ hb' hid =>
        safe_visitFields rest _ _ ((hb'.owns (hb.owns hmembers)).insert hid)
    · exact safe_visitFields rest members _ (hb.owns hmembers)
  | .positional value :: rest, members, _, hmembers =>
    .seq (.discard (safe_visitExp value _)) fun _ => safe_visitFields rest members _ hmembers

theorem safe_visitFunctionBody {l : Leeway} (id : FunctionId) :
    ∀ (body : FunctionBody) (b : Walk), b.store.IsOriginal id →
      Safe (.besides id l) b (visitFunctionBody env enter id body)
  | ⟨_, _, _, block⟩, _, hid =>
    .seq (safe_whenChecked safe_reportAll) fun _ => safe_inFunction hid fun b' _ hr =>
      .seq safe_declareParams.all fun _ => .seq (safe_visitBlock block b').all fun _ =>
        safe_finishFunction (hr.owns hid.1)

theorem safe_visitBlock :
    ∀ (block : Block) (b : Walk), Safe (.only .locals) b (visitBlock env enter block)
  | ⟨_, stats, ret⟩, _ => .seq (safe_visitStats stats _) fun _ => safe_visitReturn? ret _

theorem safe_visitReturn? :
    ∀ (ret : Option ReturnStat) (b : Walk), Safe (.only .locals) b (visitReturn? env enter ret)
  | none, _ => .plain
  | some ret, _ => safe_visitReturn ret _

theorem safe_visitReturn :
    ∀ (ret : ReturnStat) (b : Walk), Safe (.only .locals) b (visitReturn env enter ret)
  | ⟨_, values⟩, _ => .bind (safe_visitExps values _) fun _ _ _ hinfos => safe_addReturn hinfos

theorem safe_visitStats :
    ∀ (stats : List Stat) (b : Walk), Safe (.only .locals) b (visitStats env enter stats)
  | [], _ => .plain
  | s :: ss, _ => .seq (safe_visitStat s _) fun _ => safe_visitStats ss _

theorem safe_visitStat :
    ∀ (stat : Stat) (b : Walk), Safe (.only .locals) b (visitStat env enter stat)
  | .empty _, _ | .breakLoop _, _ => .plain
  | .locals range names values, _ =>
    .bind (safe_withSelfTarget (safe_visitExps values _)) fun _ _ _ hinfos =>
      .seq (safe_whenChecked safe_reportAll) fun _ => .frame_bind fun _ hb =>
      safe_declareLocals (hb.owns hinfos) _ _ _
  | .localFunction range name body, _ => by
    refine .frame_bind fun _ _ => safe_createFunction_bind fun id b' _ hid => ?_
    exact .seq
      ((safe_declare ⟨owns_none, owns_none, owns_some.2 hid.1, owns_none, owns_empty⟩).weaken
      fun _ _ _ => .inr) fun _ => safe_visitFunctionBody id body b' hid
  | .function range name body, _ => by
    refine .frame_bind fun _ _ => safe_createFunction_bind fun id b' _ hid => ?_
    exact .seq (safe_assignFunction h hid.1) fun _ => safe_visitFunctionBody id body b' hid
  | .assign range targets values, _ =>
    .bind (safe_withSelfTarget (safe_visitExps values _)) fun _ _ _ hinfos =>
      .seq (safe_whenChecked safe_reportAll) fun _ =>
      .seq (safe_whenChecked safe_reportAll) fun _ =>
        safe_visitTargets _ range 0 targets _ fun i => valueFor_owned hinfos values i
  | .call _ e, _ => .discard (safe_visitExp e _)
  | .doBlock _ block, _ => safe_withScope fun b' _ _ => (safe_visitBlock block b').all
  | .whileLoop _ cond block, _ =>
    .seq (.discard (safe_visitExp cond _)) fun _ => safe_withScope fun b' _ _ =>
      (safe_visitBlock block b').all
  | .repeatLoop _ block cond, _ =>
    safe_withScope fun b' _ _ => .seq (safe_visitBlock block b').all fun _ =>
      .discard (safe_visitExp cond b')
  | .ifChain _ clauses orElse, _ =>
    .seq (safe_whenChecked safe_reportAll) fun _ => safe_withChain fun b' hb => .seq
      (safe_visitClauses _ clauses b' hb.isOpen.scope rfl) fun _ =>
      safe_visitElse _ orElse b' hb.isOpen.scope
  | .numericFor _ var first limit step block, _ =>
    .seq (.discard (safe_visitExp first _)) fun _ =>
    .seq (.discard (safe_visitExp limit _)) fun _ =>
      .seq (safe_visitExp? step _) fun _ => safe_withScope fun b' _ _ =>
        .seq safe_declareLoopVariable.all fun _ => (safe_visitBlock block b').all
  | .genericFor _ names values block, _ =>
    .seq (.discard (safe_visitExps values _)) fun _ => safe_withScope fun b' _ _ =>
      .seq (.forM fun _ _ => safe_declareLoopVariable.all) fun _ => (safe_visitBlock block b').all
  | .goto _ label, _ => safe_addGoto
  | .label _ name, _ => safe_addLabel

theorem safe_visitExp? {l : Leeway} :
    ∀ (e? : Option Exp) (b : Walk), Safe l b (visitExp? env enter e?)
  | none, _ => .plain
  | some e, _ => .discard (safe_visitExp e _)

theorem safe_visitTargets {l : Leeway} (valueFor : Nat → ValueInfo) (statement : TextRange) :
    ∀ (i : Nat) (targets : List Exp) (b : Walk), (∀ i, b.store.Owns (valueFor i)) →
      Safe l b (visitTargets env enter valueFor statement i targets)
  | _, [], _, _ => .plain
  | i, e :: ts, _, hvalues => by
    have hmore : Safe l _ _ := safe_visitTargets valueFor statement (i + 1) ts _ hvalues
    cases e with
    | name range text => exact .seq (safe_assignName h _ (hvalues i)) fun _ => hmore
    | index range obj key dotted =>
      simp only [visitTargets]
      split
      · exact .seq (safe_assignMember h (hvalues i)) fun _ => hmore
      · exact .seq (.discard (safe_visitExp obj _)) fun _ => .seq safe_checkIndexed fun _ =>
          .seq (.discard (safe_visitExp key _)) fun _ => hmore
    | _ => exact .seq (.discard (safe_visitExp _ _)) fun _ => hmore

theorem safe_visitClauses (chain : ScopeId) :
    ∀ (clauses : List Clause) (b : Walk), b.store.Owns chain → chain = b.frame.scope →
      Safe (.only .chain) b (visitClauses env enter chain clauses)
  | [], _, _, _ => .plain
  | ⟨cond, block⟩ :: rest, _, hchain, heq => by
    refine .seq (.discard (safe_visitExp cond _)) fun _ =>
      .seq (safe_withScope fun b' _ hr => ?_) fun _ =>
      .seq (safe_narrowChain heq) fun _ => safe_visitClauses chain rest _ hchain heq
    exact .seq (safe_applyNarrowing (hr.owns hchain)) fun _ => (safe_visitBlock block b').all

theorem safe_visitElse (chain : ScopeId) :
    ∀ (block? : Option Block) (b : Walk), b.store.Owns chain →
      Safe (.only .chain) b (visitElse env enter chain block?)
  | none, _, _ => .plain
  | some block, _, hchain =>
    safe_withScope fun b' _ hr => .seq (safe_applyNarrowing (hr.owns hchain)) fun _ =>
      (safe_visitBlock block b').all

end

end

end LuaAnalysis.WalkM
