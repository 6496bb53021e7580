import LuaAnalysis.Proofs.Walk.Blocks

/-!
# Visitors follow their trees

Every visitor tells the trail and the mentions of what it visits and plays its outline: `visitExp`
of an expression, `visitStat` of a statement and so on, whatever the pass finds out about names and
loads on the way.
-/

namespace LuaAnalysis

/-- A call loads a module only through a name that is no local. -/
theorem Lexical.of_loadOf? {c : Lexical} {func : Exp} {args : List Exp} {name module : String}
    {load : LoadKind} (h : c.loadOf? func args = some (name, load, module)) :
    (∃ range, func = .name range name) ∧ c.lookup name = none := by
  obtain ⟨name', hname, h⟩ := Option.bind_eq_some_iff.1 h
  obtain ⟨load', -, h⟩ := Option.bind_eq_some_iff.1 h
  cases hbound : c.lookup name' with
  | some d => simp [hbound] at h
  | none =>
    obtain ⟨_, -, _, -, rfl, -⟩ : ∃ a, args.head? = some a ∧ ∃ m, a.unparen.asString? = some m ∧
      name' = name ∧
        load' = load ∧ m = module := by simpa [hbound, Option.bind_eq_some_iff] using h
    cases func with
    | name range text =>
      cases hname
      exact ⟨⟨range, rfl⟩, hbound⟩
    | _ => cases hname

theorem Exp.outline_of_asString {e : Exp} {text : String} (h : e.asString? = some text) :
    e.outline = .done := by
  cases e with
  | string range text => rfl
  | _ => cases h

theorem Exp.outline_of_memberChain {e : Exp} {chain : List Name} (h : e.memberChain? = some chain) :
    e.outline = .done := by
  fun_induction memberChain? e generalizing chain with
  | case1 range text => rfl
  | case2 _ obj range text _ ih =>
    obtain ⟨inner, hinner, -⟩ := Option.map_eq_some_iff.1 h
    rw [outline, ih hinner]
    rfl
  | case3 => cases h

theorem Exp.outline_of_splitChain {e : Exp} {parts : Name × List Name × Name}
    (h : WalkM.splitChain? e = some parts) : e.outline = .done := by
  unfold WalkM.splitChain? at h
  split at h
  · next hchain => exact outline_of_memberChain hchain
  · cases h

namespace WalkM

variable {env : WalkEnv} {enter : Enter} {ds : List Declaration} {t : Trail} {ms : List Mention}

/-- A function with its parameters and body, after what its name declares. -/
theorem tells_visitFunction (c : Lexical) (body : FunctionBody) (name : Option String)
    (hasColon : Bool) (types : Option FunctionTypes) {mid : FunctionId → WalkM Unit}
    {g : FunctionId → α} (hmid : ∀ id, Tells env enter c ds t ms .done (mid id))
    (ht : t.scopes = [])
    (hblock : ∀ c', Tells env enter c' (body.block.declares c'.file) (body.block.trail c')
      (body.block.mentions c'.visible) body.block.outline (visitBlock env enter body.block)) :
    Tells env enter c ds (t ++ body.trail (c.declare ds))
      (ms ++ body.mentions (c.declare ds).visible hasColon) (.function body.outline .done)
      (do
        let id ← createFunction body name hasColon types
        mid id
        visitFunctionBody env enter id body
        return g id) := by
  obtain ⟨range, params, vararg, block⟩ := body
  obtain ⟨_, es⟩ := t
  subst ht
  have hmid' : ∀ id, Tells env enter c ds { events := es } ms .done
      (do mid id; whenChecked .duplicateParam (reportAll (Check.duplicateParams params))) :=
    fun id => .bind_silent (hmid id) fun _ =>
    (reports_whenChecked (Check.kind_duplicateParams params) rfl).silent
  have hin : ∀ id w, (w.store.functionAt id).hasColon = hasColon →
      TellsAt env enter ((c.declare ds).inFunction)
        (params.map (·.declaration c.file) ++ block.declares c.file)
        (block.trail (((c.declare ds).inFunction).declare (params.map (·.declaration c.file))))
        (FunctionBody.mentions (c.declare ds).visible hasColon ⟨range, params, vararg, block⟩)
        block.outline
        (do declareParams id params; visitBlock env enter block) w := by
    intro id w hcolon
    rw [FunctionBody.mentions]
    exact .bind (tellsAt_declareParams hcolon params) fun _ => hblock _ _
  have h := (tells_function ⟨range, params, vararg, block⟩ name hasColon types hmid' hin).map g
  simp only [bind_assoc, map_bind, map_pure] at h
  simp only [visitFunctionBody, FunctionBody.trail, FunctionBody.outline, bind_assoc]
  exact h

/-- The variable of a local function, seen by the body of the function. -/
def localFunctionVariable (name : Name) (file : FileId) (id : FunctionId) : Variable :=
  { name := name.text, file, range := name.range, kind := .function, function := some id }

section Visitors

set_option linter.unusedSectionVars false

variable (he : enter.Returns)
include he

mutual

/-- Each case puts together the trails of the parts in the order of the visit. -/
theorem tells_visitExp (c : Lexical) : ∀ e : Exp,
    Tells env enter c [] (e.trail c) (e.mentions c.visible) e.outline (visitExp env enter e)
  | .nil _ | .bool _ _ | .vararg _ | .number _ _ | .string _ _ => .pure _
  | .name range text => tells_readName ⟨text, range⟩
  | .function _ ⟨range, params, vararg, block⟩ => by
    refine .frame_bind fun f _ => ?_
    have h := tells_visitFunction (g := ValueInfo.ofFunction) c
      ⟨range, params, vararg, block⟩ none false
      (f.annotations.functionTypes? range.start.line) (fun _ => .pure ()) rfl fun c' =>
      tells_visitBlock c' block
    simp only [pure_bind] at h
    exact h
  | .table range fields => by
    refine .silent_bind (reports_whenChecked (Check.kind_duplicateKeys fields) rfl).silent fun _ =>
      .silent_bind (reports_checkEnum.whenChecked.unwatched rfl).silent fun _ => ?_
    exact .bind_silent (tells_visitFields c fields _) fun members => .bind .frame fun f =>
      .bind (silent_addVariable env _) fun _ => .pure
  | .index _ obj key _ => by
    simp only [visitExp, Exp.trail, Exp.outline, Exp.mentions]
    cases hkey : key.asString? with
    | some text =>
      rw [Exp.mentions_of_asString hkey, Exp.outline_of_asString hkey, List.append_nil,
        Outline.append_done]
      exact .bind_silent (tells_visitExp c obj) fun owner =>
        .bind (silent_checkIndexed env) fun _ =>
        silent_memberInfo env owner text key.range
    | none =>
      exact .seq (tells_visitExp c obj) fun _ => .silent_bind (silent_checkIndexed env) fun _ =>
        .bind_silent (tells_visitExp c key).discard fun _ => .pure
  | .call range func args => by
    simp only [visitExp, Exp.trail, Exp.outline, Exp.mentions]
    refine .get_bind fun w hw => ?_
    rw [loadOf?_eq hw]
    cases hload : c.loadOf? func args with
    | none =>
      exact .seq (tells_visitExp c func) fun callee =>
        .bind_silent (tells_visitExps c args) fun infos =>
        .bind reports_checkCall.silent fun _ => .ask
    | some load =>
      obtain ⟨name, kind, module⟩ := load
      obtain ⟨⟨range', rfl⟩, hfree⟩ := Lexical.of_loadOf? hload
      simp only [Exp.mentions]
      rw [← List.append_nil (Exp.listMentions _ _), ← @Outline.append_done (Exp.outlines args)]
      exact .seq (tells_readLoadFunction (n := ⟨name, range'⟩) hfree) fun _ =>
        .seq (tells_visitExps c args).discard fun _ => .of_load he
  | .methodCall range obj method args =>
    .seq (tells_visitExp c obj) fun owner => .silent_bind (silent_checkIndexed env) fun _ =>
      .silent_bind (silent_memberInfo env _ _ _) fun callee =>
      .bind_silent (tells_visitExps c args) fun infos =>
        .bind reports_checkCall.silent fun _ => .ask
  | .binary range op lhs rhs => by
    refine .silent_bind (Reports.silent
      (reportsOnly_reportAll (Check.isWatched_redundantBinary op lhs rhs range))) fun _ =>
      .seq (tells_visitExp c lhs) fun left => ?_
    cases op
    case and | or =>
      exact .bind_silent (tells_withGuard (tells_visitExp c rhs)) fun _ =>
        .bind reports_checkOperands.silent fun _ => .pure
    all_goals
      exact .bind_silent (tells_visitExp c rhs) fun _ =>
        .bind reports_checkOperands.silent fun _ => .pure
  | .unary _ op operand => .bind_silent (tells_visitExp c operand).discard fun _ => .pure
  | .paren _ inner => tells_visitExp c inner

theorem tells_visitExps (c : Lexical) : ∀ es : List Exp,
    Tells env enter c [] (Exp.trails c es) (Exp.listMentions c.visible es) (Exp.outlines es)
      (visitExps env enter es)
  | [] => .pure _
  | e :: es => .seq (tells_visitExp c e) fun _ => .bind_silent (tells_visitExps c es) fun _ => .pure

theorem tells_visitFields (c : Lexical) :
    ∀ (fields : List Field) (members : OrderedMap String VariableId),
      Tells env enter c [] (Field.trails c fields) (Field.mentions c.visible fields)
        (Field.outlines fields) (visitFields env enter fields members)
  | [], members => .pure _
  | .named key value :: rest, members =>
    .seq (tells_visitExp c value) fun _ => .silent_bind .frame fun _ => .silent_bind .ask fun _ =>
      .silent_bind (silent_addVariable env _) fun _ => tells_visitFields c rest _
  | .keyed key value :: rest, members => by
    refine .seq (tells_visitExp c key).discard fun _ => .seq (tells_visitExp c value) fun _ => ?_
    cases key.asString? with
    | some name =>
      exact .silent_bind .frame fun _ => .silent_bind .ask fun _ =>
        .silent_bind (silent_addVariable env _) fun _ =>
        tells_visitFields c rest _
    | none => exact tells_visitFields c rest members
  | .positional value :: rest, members =>
    .seq (tells_visitExp c value).discard fun _ => tells_visitFields c rest members

theorem tells_visitBlock (c : Lexical) : ∀ b : Block,
    Tells env enter c (b.declares c.file) (b.trail c) (b.mentions c.visible) b.outline
      (visitBlock env enter b)
  | ⟨_, stats, ret⟩ => by
    have h := (tells_visitStats c stats).bind fun _ =>
      tells_visitReturn? (c.declare (stats.flatMap (Stat.declares c.file))) ret
    rw [List.append_nil] at h
    exact h

theorem tells_visitReturn? (c : Lexical) : ∀ ret : Option ReturnStat,
    Tells env enter c [] (ReturnStat.trail? c ret) (ReturnStat.mentions? c.visible ret)
      (ReturnStat.outline? ret) (visitReturn? env enter ret)
  | none => .pure _
  | some ret => tells_visitReturn c ret

theorem tells_visitReturn (c : Lexical) : ∀ ret : ReturnStat,
    Tells env enter c [] (ret.trail c) (ret.mentions c.visible) ret.outline
      (visitReturn env enter ret)
  | ⟨_, values⟩ => .bind_silent (tells_visitExps c values) fun _ => silent_addReturn env

theorem tells_visitStats (c : Lexical) : ∀ stats : List Stat,
    Tells env enter c (stats.flatMap (Stat.declares c.file)) (Stat.trails c stats)
      (Stat.listMentions c.visible stats) (Stat.outlines stats) (visitStats env enter stats)
  | [] => .pure _
  | s :: ss => .bind (tells_visitStat c s) fun _ => tells_visitStats _ ss

theorem tells_visitStat (c : Lexical) : ∀ s : Stat,
    Tells env enter c (s.declares c.file) (s.trail c) (s.mentions c.visible) s.outline
      (visitStat env enter s)
  | .empty _ | .breakLoop _ => .pure _
  | .locals range names values =>
    .bind_declares (tells_withSelfTarget (tells_visitExps _ values)) fun infos =>
      .silent_bind (reports_whenChecked (Check.kind_valueCountMismatch names.length values range)
        rfl).silent fun _ =>
        .frame_bind fun f _ => tells_declareLocals values infos 0 _ _ names
  | .localFunction range name ⟨range', params, vararg, block⟩ => by
    refine .frame_bind fun f hf => ?_
    rw [hf]
    have hname : ∀ id, Tells env enter c [name.declaration c.file] {} [c.visible.declaring name]
        .done (declare (localFunctionVariable name c.file id)) :=
      fun id w hw => tellsAt_declare rfl (by rw [hw.file]; rfl) hw
    have h := tells_visitFunction (g := fun _ => ()) c ⟨range', params, vararg, block⟩
      (some name.text) false
      (f.annotations.functionTypes? range.start.line) hname rfl fun c' => tells_visitBlock c' block
    simp only [bind_pure_unit] at h
    exact h
  | .function range name ⟨range', params, vararg, block⟩ => by
    refine .frame_bind fun f _ => ?_
    have h := tells_visitFunction (g := fun _ => ()) c ⟨range', params, vararg, block⟩
      (some name.display)
      name.method.isSome (f.annotations.functionTypes? range.start.line)
      (fun id => tells_assignFunction name id range) (c.scopes_writeFunction name) fun c' =>
      tells_visitBlock c' block
    simp only [bind_pure_unit] at h
    exact h
  | .assign range targets values =>
    .seq (tells_withSelfTarget (tells_visitExps _ values)) fun infos =>
      .silent_bind (reports_whenChecked (Check.kind_valueCountMismatch _ values range) rfl).silent
      fun _ =>
        .silent_bind (reports_whenChecked (Check.kind_selfAssignments targets values) rfl).silent
        fun _ =>
          tells_visitTargets c _ range 0 targets
  | .call _ e => (tells_visitExp c e).discard
  | .doBlock _ block => tells_withScope (tells_visitBlock c block)
  | .whileLoop _ cond block =>
    .seq (tells_visitExp c cond).discard fun _ => tells_withScope (tells_visitBlock c block)
  | .repeatLoop _ block cond => by
    have h := (tells_visitBlock c block).bind fun _ =>
      (tells_visitExp (c.declare (block.declares c.file)) cond).discard
    rw [List.append_nil] at h
    exact tells_withScope h
  | .ifChain _ clauses orElse => by
    refine .silent_bind (reports_whenChecked (Check.kind_duplicateConditionsAfter _) rfl).silent
      fun _ => ?_
    exact tells_withChain fun chain => .seq (tells_visitClauses c chain clauses) fun _ =>
      tells_visitElse c chain orElse
  | .numericFor _ var first limit step block =>
    .seq (tells_visitExp c first).discard fun _ => .seq (tells_visitExp c limit).discard fun _ =>
      .seq (tells_visitExp? c step) fun _ => tells_withScope <|
        .bind (tells_declareLoopVariable var .number) fun _ => tells_visitBlock _ block
  | .genericFor _ names values block =>
    .seq (tells_visitExps c values).discard fun _ => tells_withScope <|
      .bind (tells_forM_declare (fun _ _ n => tells_declareLoopVariable n .unknown) names) fun _ =>
        tells_visitBlock _ block
  | .goto _ label => tells_addGoto label
  | .label _ name => tells_addLabel name

theorem tells_visitExp? (c : Lexical) : ∀ e? : Option Exp,
    Tells env enter c [] (Exp.trail? c e?) (Exp.mentions? c.visible e?) (Exp.outline? e?)
      (visitExp? env enter e?)
  | none => .pure _
  | some e => (tells_visitExp c e).discard

/-- Targets are written in order; the first of them gets value number `i`. -/
theorem tells_visitTargets (c : Lexical) (valueFor : Nat → ValueInfo) (statement : TextRange) :
    ∀ (i : Nat) (targets : List Exp),
      Tells env enter c [] (Exp.targetTrails c targets) (Exp.targetMentions c.visible targets)
        (Exp.outlines targets) (visitTargets env enter valueFor statement i targets)
  | _, [] => .pure _
  | i, e :: ts => by
    have hmore := tells_visitTargets c valueFor statement (i + 1) ts
    cases e with
    | name range text => exact .seq (tells_assignName (n := ⟨text, range⟩)) fun _ => hmore
    | index range obj key dotted =>
      simp only [visitTargets, Exp.targetTrails, Exp.outlines, Exp.targetMentions]
      cases hsplit : splitChain? (.index range obj key dotted) with
      | some chain =>
        obtain ⟨base, path, last⟩ := chain
        have hmember := Exp.mentions_of_splitChain hsplit c.visible
        rw [← List.append_assoc, ← List.append_assoc, List.append_assoc _ _ (List.map _ _), hmember,
          Exp.outline_of_splitChain hsplit]
        exact .seq tells_assignMember fun _ => hmore
      | none =>
        rw [Exp.rootKey?_of_splitChain hsplit]
        simp only [Trail.append_assoc, Exp.outline, Outline.append_assoc]
        exact .seq (tells_visitExp c obj).discard fun _ =>
          .silent_bind (silent_checkIndexed env) fun _ =>
          .seq (tells_visitExp c key).discard fun _ => hmore
    | _ => exact .seq (tells_visitExp c _).discard fun _ => hmore

theorem tells_visitClauses (c : Lexical) (chain : ScopeId) : ∀ clauses : List Clause,
    Tells env enter c [] (Clause.trails c clauses) (Clause.mentions c.visible clauses)
      (Clause.outlines clauses) (visitClauses env enter chain clauses)
  | [] => .pure _
  | ⟨cond, block⟩ :: rest =>
    .seq (tells_visitExp c cond).discard fun _ =>
      .seq (tells_withScope
        (.silent_bind (silent_applyNarrowing env _ _) fun _ => tells_visitBlock c block)) fun _ =>
        .silent_bind (silent_narrowChain env) fun _ => tells_visitClauses c chain rest

theorem tells_visitElse (c : Lexical) (chain : ScopeId) : ∀ block? : Option Block,
    Tells env enter c [] (Block.elseTrail c block?) (Block.elseMentions c.visible block?)
      (Block.elseOutline block?) (visitElse env enter chain block?)
  | none => .pure _
  | some block =>
    tells_withScope (.silent_bind (silent_applyNarrowing env _ _) fun _ => tells_visitBlock c block)

end

end Visitors

end WalkM

end LuaAnalysis
