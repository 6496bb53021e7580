import LuaAnalysis.Proofs.Walk.Trace

/-!
# What visitors are built from

Scopes, functions, declarations and names: each building block of the visitors tells its part of a
trail.
-/

namespace LuaAnalysis.WalkM

open List Store

variable {α β : Type} {env : WalkEnv} {enter : Enter} {c : Lexical} {ds ds' : List Declaration}
  {t t' : Trail}
  {ms ms' : List Mention} {o o' : Outline}
variable {m : WalkM α} {w : Walk} {free : ScopeId → Prop}
variable {kind : ScopeKind} {range : TextRange} {v : Variable} {n : Name}
variable {scope chain : ScopeId} {outer : Frame} {info : ValueInfo} {proven : NameSet}
  {target : Option String} {id : FunctionId}
  {path : List Name} {base : Name}

/-! ## Places -/

/-- A guard is on the stack while `m` runs and is popped after it; nothing else of the place
changes. -/
theorem tells_withGuard {guard : NameSet} (hm : Tells env enter c [] t ms o m) :
    Tells env enter c [] t ms o (withGuard guard m) := by
  intro w hw
  let w₁ : Walk := { w with frame := { w.frame with guards := guard :: w.frame.guards } }
  obtain ⟨hplay, hgo⟩ := hm w₁ { hw with }
  have hbody : Goes env enter (c.withSelfTarget c.selfTarget) [] t ms w₁ (m w₁).2 := hgo
  have hall : Goes env enter c [] t ms w (withGuard guard m w).2 :=
    .reframe hw hbody (congrArg (fun p : Frame => { p with guards := p.guards.tail }) hgo.place) rfl
    rfl rfl rfl rfl
  refine ⟨.plain hw.toReady ?_
    (hplay.append_plain hgo.context.toReady ?_ hall.context.toReady), hall⟩
  · exact .of_frame rfl rfl
  · exact .of_frame rfl rfl

/-- The body of a method tells its part with the name that `self` stands for. -/
theorem tells_withSelfTarget (hm : Tells env enter (c.withSelfTarget target) [] t ms o m) :
    Tells env enter c [] t ms o (withSelfTarget target m) := by
  intro w hw
  obtain ⟨hplay, hgo⟩ :=
    hm { w with frame := { w.frame with selfTarget := target } } { hw with selfTarget := rfl }
  have hall : Goes env enter c [] t ms w (withSelfTarget target m w).2 :=
    .reframe hw hgo (congrArg (fun p : Frame => { p with selfTarget := w.frame.selfTarget })
      hgo.place) rfl rfl rfl rfl rfl
  refine ⟨.plain hw.toReady ?_
    (hplay.append_plain hgo.context.toReady ?_ hall.context.toReady), hall⟩
  · exact .of_frame rfl rfl
  · exact .of_frame rfl rfl

theorem silent_changeChain {known : OrderedMap String VariableId} :
    Silent env (changeStore (·.modifyScope scope ({ · with chainNarrowed := known }))) :=
  silent_changeStore env (fun s => within_modifyScope _ s scope (by exact fun _ => rfl))
    (fun _ => .refl) (fun _ => rfl)
    fun _ => rfl

/-- The names that a chain of conditions proves are dropped at its end, so the chain tells what `m`
does. -/
theorem tells_withChain {m : ScopeId → WalkM α}
    (hm : ∀ scope, Tells env enter c ds t ms o (m scope)) :
    Tells env enter c ds t ms o (withChain m) :=
  .silent_bind .frame fun _ => .silent_bind .ask fun _ => .silent_bind silent_changeChain fun _ =>
    .bind_silent (hm _) fun _ => .bind silent_changeChain fun _ => .pure

/-! ## Scopes -/

/-- A change of the store alone is quiet when it starts no file, marks nothing and copies nothing.
-/
theorem Quiet.of_store {s : Store} (h : Store.Within free w.store s)
    (hsize : s.references.size = w.store.references.size)
    (hi : s.importedVariables = w.store.importedVariables) :
    Quiet env free w { w with store := s } :=
  ⟨⟨⟨h, fun _ => h.marked_of_size_eq hsize, rfl⟩, rfl⟩, fun hm => hm.of_grows h.vars hi⟩

/-- The scope with the next number is new and empty, and is the last child of the current one. -/
theorem Opens.of_scopeAt {s : Store} {function : FunctionId} (hw : Ready w)
    (hwithin : Store.Within (· = w.frame.scope) w.store s)
    (hat : ∀ i : ScopeId, s.scopeAt i =
      if i.index = w.store.scopes.size then { kind, parent := some w.frame.scope, function, range }
      else if i ∈ some w.frame.scope then
        { w.store.scopeAt i with
          children := (w.store.scopeAt i).children ++ [⟨w.store.scopes.size⟩] }
      else w.store.scopeAt i)
    (hsize : s.scopes.size = w.store.scopes.size + 1)
    (hreferences : s.references.size = w.store.references.size)
    (hi : s.importedVariables = w.store.importedVariables) :
    Opens env kind range w { w with store := s } := by
  have hne : ¬ w.frame.scope.index = w.store.scopes.size := Nat.ne_of_lt hw.scope_lt
  refine
    { quiet := .of_store hwithin hreferences hi
      occurrences := rfl
      place := rfl
      lt := by simp [nextScope, hsize]
      fresh := ?_
      locals := ?_
      children := ?_ }
  · simp [hat, nextScope]
  · simp [hat, hne]
  · simp [hat, hne, nextScope]

theorem opens_addScope (hw : Ready w) (kind : ScopeKind) (function : FunctionId)
    (range : TextRange) :
    Opens env kind range w
      { w with store := (w.store.addScope kind (some w.frame.scope) function range).1 } :=
  .of_scopeAt hw (within_addScope _ w.store hw.parent_lt (by rintro p ⟨⟩; rfl))
    (scopeAt_addScope w.store kind _ function range hw.parent_lt) (by simp) (by simp) (by simp)

theorem quiet_modifyFunction {f : Function → Function} (hf : ∀ x, (f x).core = x.core) :
    Quiet env free w { w with store := w.store.modifyFunction id f } :=
  .of_store (within_modifyFunction _ w.store hf) rfl rfl

theorem quiet_finishFunction (id : FunctionId) (w : Walk) :
    Quiet env free w (finishFunction id w).2 := by
  have hsettled : Quiet env free w (settled id w) := quiet_modifyFunction fun _ => rfl
  rw [finishFunction_apply]
  refine hsettled.trans ⟨.of_findings fun d hd => ?_, fun hm => hm⟩
  have hkind : d.kind = .unknownGotoLabel ∨ d.kind = .unusedLocal ∨ d.kind = .unusedLocalFunction :=
    (mem_append.1 hd).imp (fun hd => by obtain ⟨g, -, rfl⟩ := mem_map.1 hd; rfl) (kind_unusedIn d)
  rcases hkind with h | h | h <;> rw [h] <;> decide

/-- Finishing a function reports its jumps and adds nothing to the trail. -/
theorem Goes.finish {w₁ w' : Walk} (h : Goes env enter c ds t ms w w₁) (hw : InContext env c w)
    (hf : finishFunction id w₁ = ((), w')) : Goes env enter c ds t ms w w' := by
  obtain rfl : (finishFunction id w₁).2 = w' := congrArg Prod.snd hf
  have hend : Goes env enter (c.declare ds) [] {} [] w₁ (finishFunction id w₁).2 :=
    .of_quiet h.context (quiet_finishFunction id w₁)
    (place_finishFunction id w₁) occurrences_finishFunction
  have hall := h.trans hend hw
  rwa [append_nil, append_nil, Trail.append_empty] at hall

theorem quiet_inScope (scope : ScopeId) : Quiet env free w (inScope scope w) :=
  .of_frame rfl rfl

/-- The state in which `body` runs, and the state that `withScope` leaves. -/
theorem withScope_apply {body : WalkM α} : withScope kind range body w =
    ((body (insideScope kind range w)).1, outsideScope w (body (insideScope kind range w)).2) := rfl

theorem quiet_insideScope (kind : ScopeKind) (range : TextRange) (w : Walk) :
    Quiet env free (scopeOpened kind range w) (insideScope kind range w) := by
  exact (Quiet.of_soundless (silent_changeDepth _)).trans (quiet_inScope _)

/-- A new scope declares nothing, so the names at its start mean what they mean outside. -/
theorem inContext_insideScope (hw : InContext env c w) :
    InContext env c (insideScope kind range w) := by
  have hopen : Opens env kind range w (scopeOpened kind range w) :=
    opens_addScope hw.toReady kind w.frame.function range
  obtain ⟨-, -, hparent, hlocals, -⟩ := hopen.fresh
  have hquiet : Quiet env (fun _ => False) (scopeOpened kind range w) (insideScope kind range w) :=
    quiet_insideScope kind range w
  have htop : (insideScope kind range w).isTop = c.top :=
    (isTop_eq hquiet.store.toExtends rfl (hopen.inContext hw).function_lt).trans
    (hopen.inContext hw).top
  exact (hopen.inContext hw).inside htop (quiet_insideScope kind range w) rfl hw.selfTarget hopen.lt
    (hopen.inContext hw).function_lt hw.scope_lt hparent hlocals

theorem parent_insideScope (hw : Ready w) :
    ((insideScope kind range w).store.scopeAt (nextScope w)).parent = some w.frame.scope := by
  obtain ⟨-, -, hparent, -⟩ := (@opens_addScope default w hw kind w.frame.function range).fresh
  exact hparent

/-- What is declared in a scope is gone at its end, and what `m` tells is told in a scope of its
own. -/
theorem tells_withScope (hm : Tells env enter c ds t ms o m) :
    Tells env enter c [] (t.inScope kind range ds) ms (.scope o .done)
      (withScope kind range m) := by
  intro w hw
  have hopen : Opens env kind range w (scopeOpened kind range w) :=
    opens_addScope hw.toReady kind w.frame.function range
  obtain ⟨hplay, hgo⟩ := hm _ (inContext_insideScope hw)
  have hall : Goes env enter c [] (t.inScope kind range ds) ms w (withScope kind range m w).2 := by
    rw [withScope_apply]
    have hleave : Soundless env _
      (leaveScope w.frame (nextScope w) (m (insideScope kind range w)).2).2 :=
      silent_leaveScope _
    have hback : Quiet env (fun _ => False) _ _ :=
      (Quiet.of_soundless hleave).trans (quiet_inScope w.frame.scope)
    have hmid : Goes env enter c [] {} [] (scopeOpened kind range w) (scopeOpened kind range w) :=
      .of_quiet (hopen.inContext hw) (.of_soundless (.refl _)) rfl rfl
    refine Goes.inScope hw hopen hmid (quiet_insideScope kind range w) rfl rfl hgo hback
      hleave.occurrences ?_
    exact congrArg (fun p : Frame => { p with scope := w.frame.scope })
      (hleave.place.trans hgo.place)
  exact ⟨.scope hw.toReady hplay (.done hall.context.toReady), hall⟩

/-! ## Functions -/

/-- The second half of `createFunction`: record the annotated types, if there are any. -/
def setTypes (id : FunctionId) : Option FunctionTypes → WalkM Unit
  | some types => changeStore (·.modifyFunction id ({ · with types }))
  | none => pure ()

theorem silent_setTypes (env : WalkEnv) (id : FunctionId) (types : Option FunctionTypes) :
    Silent env (setTypes id types) := by
  cases types with
  | none => exact .pure
  | some types => exact silent_modifyFunction env fun _ => rfl

/-- `createFunction` adds the function with its main scope, and then sets its types. -/
theorem createFunction_eq {body : FunctionBody} {name : Option String} {hasColon : Bool}
    {types : Option FunctionTypes} {f : FunctionId → WalkM α} :
    (createFunction body name hasColon types >>= f) w =
      (setTypes (nextFunction w) types >>= fun _ =>
        f (nextFunction w)) (functionAdded body name hasColon w) := by
  cases types <;> rfl

/-- A new function opens its main scope under the current scope. -/
theorem opens_functionAdded (hw : Ready w) (body : FunctionBody) (name : Option String)
    (hasColon : Bool) : Opens env .function body.range w (functionAdded body name hasColon w) :=
  .of_scopeAt hw (within_addFunction _ w.store hw.parent_lt (by rintro p ⟨⟩; rfl) rfl)
    (scopeAt_addFunction w.store _ hw.parent_lt) (by simp) (by simp)
    (importedVariables_addFunction _ _)

/-- The function, scope, guards and `self` target of the outer function are back after the body;
what the file collects is kept. -/
theorem inFunction_apply {body : WalkM α} :
    inFunction id body w =
      ((body (insideFunction id w)).1, outsideFunction w.frame (body (insideFunction id w)).2) :=
  rfl

theorem quiet_insideFunction : Quiet env free w (insideFunction id w) :=
  .of_frame rfl rfl

theorem quiet_outsideFunction : Quiet env free w (outsideFunction outer w) :=
  .of_frame rfl rfl

theorem place_outsideFunction {w' : Walk} (h : w'.frame.place = (insideFunction id w).frame.place)
    (ho : w.frame.place = outer.place) :
    (outsideFunction w.frame w').frame.place = outer.place := by
  rw [← ho]
  exact congrArg (fun p : Frame => { p with
    function := w.frame.function, scope := w.frame.scope, guards := w.frame.guards
    selfTarget := w.frame.selfTarget }) h

/-- At the start of a function's body the names mean what they mean where the function stands, and
the walk is no longer at the top of the file. -/
theorem Opens.inContext_insideFunction {w₁ w₂ : Walk} (hopen : Opens env .function range w w₁)
    (hw : InContext env c w) (hlt : id.index < w₁.store.functions.size)
    (hmain : (w₁.store.functionAt id).mainScope = nextScope w)
    (hdepth : ((w₁.store.functionAt id).depth == 0) = false)
    (hgo : Goes env enter c ds t ms w₁ w₂) :
    (w₂.store.functionAt id).mainScope =
      nextScope w ∧ InContext env ((c.declare ds).inFunction) (insideFunction id w₂) := by
  -- The main scope of the function is still the empty scope that was opened.
  have hscope₁ : w₁.frame.scope = w.frame.scope := part_eq hopen.place Frame.scope
  have hscope₂ : w₂.frame.scope = w.frame.scope := (part_eq hgo.place Frame.scope).trans hscope₁
  have hne : ¬ nextScope w = w₁.frame.scope := by
    rw [hscope₁]
    exact fun h => absurd hw.scope_lt (by rw [← h]; exact Nat.lt_irrefl _)
  obtain ⟨-, -, hparent, hlocals, -⟩ := hopen.fresh
  have hmain₂ : (w₂.store.functionAt id).mainScope = nextScope w := by
    rw [part_eq (hgo.store.function_core hlt) Function.mainScope, hmain]
  have htop : (insideFunction id w₂).isTop = false :=
    (part_eq (hgo.store.function_core hlt) (·.depth == 0)).trans hdepth
  refine ⟨hmain₂,
    hgo.context.inside htop quiet_insideFunction hmain₂ rfl (hgo.store.scope_lt hopen.lt)
    (hgo.store.function_lt hlt) ?_ ?_ ?_⟩
  · rw [hscope₂]
    exact hw.scope_lt
  · rw [hgo.store.parent_eq hopen.lt, hparent, hscope₂]
  · rw [hgo.store.locals_eq hopen.lt hne, hlocals]

/-- A function between what its name declares (`mid`) and its body (`m`): the body is told in a
scope of its own, and its jumps are matched among themselves. -/
theorem tells_function {es : List Event} (body : FunctionBody) (name : Option String)
    (hasColon : Bool) (types : Option FunctionTypes) {mid : FunctionId → WalkM α}
    {m : FunctionId → WalkM Unit}
    (hmid : ∀ id, Tells env enter c ds { events := es } ms .done (mid id))
    (hm : ∀ id w, (w.store.functionAt id).hasColon = hasColon →
      TellsAt env enter ((c.declare ds).inFunction) ds' t ms' o (m id) w) :
    Tells env enter c ds ({ events := es } ++ t.inScope .function body.range ds') (ms ++ ms')
    (.function o .done)
      (do
        let id ← createFunction body name hasColon types
        let _ ← mid id
        inFunction id do
          m id
          finishFunction id
        return id) := by
  intro w hw
  have hopen : Opens env .function body.range w _ :=
    opens_functionAdded hw.toReady body name hasColon
  have hnew : (functionAdded body name hasColon w).store.functionAt (nextFunction w) = _ :=
    functionAt_addFunction_new w.store (innerSpec w.frame body name hasColon)
  have hlt :
      (nextFunction w).index < (functionAdded body name hasColon w).store.functions.size := by
    simp [functionAdded, nextFunction]
  have hdepth : (((functionAdded body name hasColon w).store.functionAt (nextFunction w)).depth ==
    0) = false :=
    beq_eq_false_iff_ne.2 (congrArg Function.depth hnew ▸ Nat.succ_ne_zero _)
  rw [createFunction_eq, ← bind_assoc]
  obtain ⟨hplay, hgo⟩ :=
    Tells.silent_bind (silent_setTypes env (nextFunction w) types) (fun _ => hmid (nextFunction w))
    (functionAdded body name hasColon w) (hopen.inContext hw)
  rw [bind_apply]
  generalize (setTypes (nextFunction w) types >>= fun _ =>
    mid (nextFunction w)) (functionAdded body name hasColon w) = r
    at hplay hgo
  obtain ⟨a, w₁⟩ := r
  obtain ⟨hmain, hin⟩ :=
    hopen.inContext_insideFunction hw hlt (congrArg Function.mainScope hnew) hdepth hgo
  have hcolon : (w₁.store.functionAt (nextFunction w)).hasColon = hasColon :=
    (part_eq (hgo.store.function_core hlt) Function.hasColon).trans
    (congrArg Function.hasColon hnew)
  obtain ⟨hplay', hgo'⟩ := hm (nextFunction w) (insideFunction (nextFunction w) w₁) hcolon hin
  have hback : Quiet env (fun _ => False)
    (m (nextFunction w) (insideFunction (nextFunction w) w₁)).2
      (outsideFunction w₁.frame
        (finishFunction
          (nextFunction w) (m (nextFunction w) (insideFunction (nextFunction w) w₁)).2).2) :=
    (quiet_finishFunction _ _).trans quiet_outsideFunction
  have hall := Goes.inScope hw hopen hgo quiet_insideFunction rfl hmain hgo' hback
    occurrences_finishFunction
    (place_outsideFunction ((place_finishFunction _ _).trans hgo'.place)
      (hgo.place.trans hopen.place))
  exact ⟨.function hw.toReady hplay.plain_of_done hplay' (.done hall.context.toReady), hall⟩

/-! ## Declarations -/

theorem declareQuietly_apply :
    declareQuietly v w =
      (⟨w.store.vars.size⟩,
        { w with
          store := w.store.declared w.frame.scope { v with owner := some w.frame.function } }) :=
            rfl

/-- A declaration that no name in the text stands for, as that of `self`: there is no occurrence. -/
theorem tellsAt_declareQuietly (hname : v.name = n.text) (hkey : v.key = ⟨w.frame.file, n.range⟩) :
    TellsAt env enter c [n.declaration c.file] {} [] .done (declareQuietly v) w := by
  intro hw
  rw [declareQuietly_apply]
  have hfile := hw.file
  generalize hv : ({ v with owner := some w.frame.function } : Variable) = v'
  have hd : n.declaration c.file = (v'.name, v'.key) := by
    rw [← hv, ← hfile]
    exact Prod.ext hname.symm hkey.symm
  have hwithin := within_declared w.store w.frame.scope v'
  have hquiet : Quiet env (· = w.frame.scope) w
    { w with store := w.store.declared w.frame.scope v' } :=
    .of_store hwithin rfl rfl
  have hgo : Goes env enter c [n.declaration c.file] {} [] w
    { w with store := w.store.declared w.frame.scope v' } :=
    { trace := .moves (.of_scope hquiet rfl hw.scope_lt) rfl (.done _)
      context := hw.of_place _ hwithin.toExtends rfl fun name => by
        rw [Lexical.lookup_declare, ← hw.bindings, hd]
        exact bindingAt?_declared hw.wellFormed hw.scope_lt
      place := rfl
      store := hwithin.toExtends
      locals := by
        rw [hd]
        exact localsView_declared hw.wellFormed hw.scope_lt
      children := by
        refine ⟨[], ?_, rfl⟩
        rw [append_nil]
        change ((w.store.declared w.frame.scope v').scopeAt w.frame.scope).children = _
        rw [scopeAt_declared]
        split <;> rfl }
  exact hgo.plain hw ⟨rfl, hwithin.toExtends.weaken fun _ _ _ => trivial, .refl, rfl⟩

/-- A declaration is seen by what follows it, and is an occurrence of its own. -/
theorem tellsAt_declare (hname : v.name = n.text) (hkey : v.key = ⟨w.frame.file, n.range⟩) :
    TellsAt env enter c [n.declaration c.file] {} [c.visible.declaring n] .done (declare v) w := by
  intro hw
  have hkey' : v.key = ⟨c.file, n.range⟩ := hw.file ▸ hkey
  have hrange : v.range = n.range := congrArg DeclKey.range hkey'
  refine (?_ : TellsAt env enter c ([_] ++ []) ({} ++ {}) ([] ++ [_]) (.done ++ .done)
    (declareQuietly v >>= _) w) hw
  refine (tellsAt_declareQuietly hname hkey).bind fun _ hw₁ => ?_
  have hgo : Goes env enter (c.declare [n.declaration c.file]) [] {} [c.visible.declaring n]
    (declareQuietly v w).2
      (notify v.name v.range .declaration (declareQuietly v w).1 (declareQuietly v w).2).2 := by
    refine Goes.of_named hw₁ ⟨hname, hw₁.file, hrange, .rfl, ?_, nofun⟩ nofun
    -- The variable that is announced is the local that has just been declared.
    rintro d ⟨⟩
    refine ⟨rfl, ?_, ?_⟩
    · rw [declareQuietly_apply, variableAt_declared, if_pos rfl]
      exact congrArg some hkey'
    · rw [Variable.isLocal_classIn, declareQuietly_apply, variableAt_declared, if_pos rfl]
      rfl
  exact hgo.plain hw₁ (.of_still (calm_notify env _))

/-- Names declared one after another: each is seen by those after it. -/
theorem tells_forM_declare {f : Name → WalkM PUnit}
    (hf : ∀ c' : Lexical, c'.file = c.file → ∀ n,
      Tells env enter c' [n.declaration c'.file] {} [c'.visible.declaring n] .done (f n))
    (names : List Name) :
    Tells env enter c (names.map (·.declaration c.file)) {} (names.map c.visible.declaring)
      .done (names.forM f) := by
  induction names generalizing c with
  | nil => exact .pure _
  | cons n names ih => exact .bind (hf c rfl n) fun _ => ih hf

theorem tells_declareLoopVariable (name : Name) (kind : ValueKind) :
    Tells env enter c [name.declaration c.file] {} [c.visible.declaring name] .done
      (declareLoopVariable name kind) :=
  fun _ => tellsAt_declare rfl rfl

theorem tells_declareSelf {f : Function} (hname : v.name = n.text)
    (hkey : v.key = ⟨c.file, n.range⟩) :
    Tells env enter c [n.declaration c.file] {} [] .done (declareSelf f v) := by
  rw [declareSelf]
  split
  · exact .ask_bind fun _ => .discard fun w hw => tellsAt_declareQuietly hname (hw.file ▸ hkey) hw
  · exact .discard fun w hw => tellsAt_declareQuietly hname (hw.file ▸ hkey) hw

/-- Parameters are declared in order; a first `self` of a method is declared without an occurrence.
-/
theorem tellsAt_declareParams {isMethod : Bool}
    (hcolon : (w.store.functionAt id).hasColon = isMethod) (params : List Name) :
    TellsAt env enter c (params.map (·.declaration c.file)) {}
      ((writtenParams isMethod params).map c.visible.declaring) .done
        (declareParams id params) w := by
  intro hw
  rw [declareParams, bind_apply, frame_apply, bind_apply, ask_apply, hw.file]
  generalize w.store.functionAt id = x at hcolon
  cases params with
  | nil => exact Tells.pure () w hw
  | cons first rest =>
    have hdeclare : ∀ c' : Lexical, c'.file = c.file →
      ∀ p : Name, Tells env enter c' [p.declaration c'.file] {}
        [c'.visible.declaring p] .done (declare (paramVariable c.file x p)) :=
      fun c' hc' p w hw => tellsAt_declare rfl (by rw [hw.file, hc']; rfl) hw
    refine (?_ : Tells env enter c _ _ _ _ _) w hw
    rw [writtenParams]
    dsimp only
    rw [hcolon]
    split
    · exact .bind (tells_declareSelf rfl rfl) fun _ =>
        tells_forM_declare (c := c.declare _) hdeclare rest
    · exact .bind (hdeclare c rfl first) fun _ =>
        tells_forM_declare (c := c.declare _) hdeclare rest

theorem tells_declareLocal {values : List Exp} {infos : List ValueInfo} {i : Nat}
    {declaredType : Option String} {constant : Bool} {n : LocalName} :
    Tells env enter c [n.name.declaration c.file] {} [c.visible.declaring n.name]
      .done (declareLocal values infos i declaredType constant n) := by
  refine .frame_bind fun f hf => .ask_bind fun s => .ask_bind fun s' => ?_
  have hname : (s.variableFrom n.name.text f.file n.name.range
    ((valueAt? infos values i).getD (.ofKind .nil))).name =
      n.name.text := by
    rw [Store.variableFrom]
    split <;> rfl
  obtain ⟨-, hkey, -⟩ := @variableFrom_core n.name.text
    ((valueAt? infos values i).getD (.ofKind .nil)) n.name.range s f.file
  generalize s.variableFrom n.name.text f.file n.name.range
    ((valueAt? infos values i).getD (.ofKind .nil)) = bare
    at hname hkey
  rw [hf] at hkey
  dsimp only
  split
  case' h_1 => refine .silent_bind reports_checkAssignedType.silent fun _ => ?_
  all_goals
    refine .bind_silent (fun w hw => tellsAt_declare hname (hw.file ▸ hkey) hw) fun _ => ?_
    split
    · exact silent_modifyReference env fun _ => rfl
    · exact .pure

theorem tells_declareLocals (values : List Exp) (infos : List ValueInfo) (i : Nat)
    (declaredType : Option String) (constant : Bool) (names : List LocalName) :
    Tells env enter c (names.map (·.name.declaration c.file)) {}
      (names.map fun n => c.visible.declaring n.name)
      .done (declareLocals values infos i declaredType constant names) := by
  induction names generalizing c i declaredType constant with
  | nil => exact .pure _
  | cons n rest ih => exact .bind tells_declareLocal fun _ => ih _ _ _

/-! ## Names -/

/-- A read of a name is an event exactly when no scope declares the name. -/
theorem tells_readName (n : Name) :
    Tells env enter c [] (c.read n.text n.range) [c.visible.read n] .done
      (readName env n.text n.range) := by
  refine .of_acts fun w hw => ?_
  have h : Acts env w _ _ _ := .read n hw.toReady
  rw [hw.bindings, hw.selfTarget, hw.top] at h
  exact h

/-- A write to a name no scope declares defines a global; any other writes the local. -/
theorem tells_assignName {statement : TextRange} :
    Tells env enter c [] (c.write n.text n.range) [c.visible.write n] .done
      (assignName env n.text n.range info statement) := by
  refine .of_acts fun w hw => ?_
  have h : Acts env w _ _ _ := .write n info statement
  rw [hw.bindings] at h
  exact h

theorem tells_assignRootGlobal :
    Tells env enter c [] (.event (.writeRoot n.text n.range)) [n.global] .done
    (assignRootGlobal env n.text n.range info) :=
  .of_acts fun _ _ => .writeRoot n info

/-- The name of a load function is read before its file is entered. -/
theorem tells_readLoadFunction (hfree : c.lookup n.text = none) :
    Tells env enter c [] (c.loadFunction n.text n.range) [c.visible.read n] .done
      (readLoadFunction env n.text n.range) := by
  rw [readLoadFunction, Lexical.loadFunction]
  split
  · exact (tells_readName n).discard
  · intro w hw
    have hgo : Goes env enter c [] {} [c.visible.read n] w
        (notifyUnbound n.text n.range .builtin w).2 := by
      refine Goes.of_named hw ⟨rfl, hw.file, rfl, .rfl, fun d hd => ?_, fun _ => ⟨rfl, nofun⟩⟩
        fun _ => rfl
      exact absurd (hfree.symm.trans hd) nofun
    exact hgo.plain hw (.of_still (calm_notifyUnbound env _ _ _ w))

theorem tells_memberOwner? :
    Tells env enter c [] (c.read base.text base.range) [c.visible.read base] .done
      (memberOwner? env base path) :=
  .bind_silent (tells_readName base) fun _ => .bind (silent_checkMaybeNil env) fun _ => .ask

/-- A member of `_G` is a global of the root; any other member only reads its base. -/
theorem tells_assignMember {key : Name} : Tells env enter c [] (c.writeMember base path key)
      (c.visible.read base :: if base.text == "_G" && path.isEmpty then [key.global] else []) .done
      (assignMember env base path key info) := by
  rw [assignMember, Lexical.writeMember]
  split
  · exact .seq (tells_readName base).discard fun _ => tells_assignRootGlobal
  · refine .bind_silent tells_memberOwner? fun owner => ?_
    split
    · exact silent_setMember env
    · exact .pure

/-- `function a.b.c()` writes a name or a member, as an assignment to `a.b.c` does. -/
theorem tells_assignFunction (name : FunctionName) (id : FunctionId) (range : TextRange) :
    Tells env enter c [] (c.writeFunction name) (name.mentions c.visible) .done
      (assignFunction env name id range) := by
  rw [assignFunction, Lexical.writeFunction]
  cases hkeys : name.more ++ name.method.toList with
  | nil =>
    have hname : name.mentions c.visible = [c.visible.write name.first] := by
      unfold FunctionName.mentions
      rw [hkeys]
    rw [hname]
    exact tells_assignName
  | cons key rest =>
    rw [FunctionName.mentions_cons hkeys]
    dsimp only
    rw [Lexical.writeMember]
    split
    · exact .seq (tells_readName name.first).discard fun _ => tells_assignRootGlobal
    · refine .bind_silent tells_memberOwner? fun owner => ?_
      split
      · refine .ite ?_ .pure
        split
        · exact .bind (silent_modifyFunction env fun _ => rfl) fun _ => silent_setMember env
        · exact silent_setMember env
      · exact .pure

/-! ## Jumps -/

theorem tells_addGoto (name : Name) :
    Tells env enter c [] {} [] (.goto name .done) (addGoto name) := by
  intro w hw
  have hgo : Goes env enter c [] {} [] w (addGoto name w).2 :=
    .of_quiet hw (quiet_modifyFunction fun _ => rfl) rfl rfl
  exact ⟨.goto hw.toReady (.done hgo.context.toReady), hgo⟩

theorem tells_addLabel (name : Name) :
    Tells env enter c [] {} [] (.label name .done) (addLabel name) := by
  intro w hw
  have hgo : Goes env enter c [] {} [] w (addLabel name w).2 :=
    .of_quiet hw (quiet_modifyFunction fun _ => rfl) rfl rfl
  exact ⟨.label hw.toReady (.done hgo.context.toReady), hgo⟩

end LuaAnalysis.WalkM
