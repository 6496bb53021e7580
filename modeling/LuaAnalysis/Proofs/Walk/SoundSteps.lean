import LuaAnalysis.Proofs.Walk.Names
import LuaAnalysis.Proofs.Walk.Sound

/-!
# Steps of sound walks

What the visitors do at a node passes through sound states, given that the values in hand hold
numbers of the store. A definition of a global never takes a variable that a scope declares: it is a
new variable, a copy, or a global already.
-/

namespace LuaAnalysis

/-- A global, if there is a variable at all. -/
def Store.MayBeGlobal (s : Store) (v? : Option VariableId) : Prop :=
  ∀ v ∈ v?, s.IsGlobal v

/-- A function of the store that is not a copy. -/
def Store.IsOriginal (s : Store) (f : FunctionId) : Prop :=
  s.Owns f ∧ f ∉ s.importedFunctions.values

/-- What the walks of files alone have found is sound, each in its own store. -/
def FirstPass.Sound (p : FirstPass) : Prop :=
  ∀ a ∈ p.analyses, a.store.Sound ∧ a.store.Owns a.result

/-- What a file alone defines is a variable of the store of that file. -/
theorem FirstPass.Defines.owned {p : FirstPass} {name : String} {found : FileAnalysis × VariableId}
    (hd : p.Defines name found) (h : p.Sound) :
    found.1.store.Sound ∧ found.1.store.Owns found.2 := by
  obtain ⟨hstore, hresult⟩ := h found.1 hd.mem
  rcases hd.listed with hget | hget
  · exact ⟨hstore, (hresult.globals.get? found.2 hget).1⟩
  · exact ⟨hstore, (hresult.rootGlobals.get? found.2 hget).1⟩

/-- The variable that a lookup has found is one of the store. -/
def Lookup.Owned (s : Store) : Lookup → Prop
  | found v => s.Owns v
  | tooEarly v _ => s.Owns v
  | builtin => True
  | unresolved => True

instance : HoldsIds Lookup where
  owned := Lookup.Owned
  owned_of_includes {_ _ a} h ha := by
    cases a with
    | found v => exact h.owns (a := v) ha
    | tooEarly v _ => exact h.owns (a := v) ha
    | builtin => trivial
    | unresolved => trivial

variable {info : ValueInfo} {s : Store} {infos : List ValueInfo}

namespace WalkM

open Store

variable {l : Leeway} {b : Walk} {range statement : TextRange} {scope chain : ScopeId}
  {id : VariableId} {v : Variable}
  {kind : ValueKind} {proven : NameSet} {path : List Name} {base : Name}
    {values : List Exp} {i : Nat}
variable {f : OrderedMap String VariableId → OrderedMap String VariableId}

/-! ## Findings and occurrences -/

/-- Findings hold no numbers of the store. -/
theorem safe_of_reports {p : Kind → Prop} {m : WalkM Unit} (h : ReportsOnly p m) : Safe l b m := by
  refine .of_run fun w hw => ?_
  obtain ⟨ds, hds, -⟩ := h w
  rw [hds]
  exact ⟨hw.passes_reframe rfl rfl, .of_grows .refl .refl rfl rfl rfl, trivial⟩

theorem safe_report {kind : Kind} {message : String} {related : List RelatedPlace} :
    Safe l b (report kind message range related) :=
  safe_of_reports reportsOnly_kind

theorem safe_reportAll {findings : List Finding} : Safe l b (reportAll findings) :=
  safe_of_reports (reportsOnly_reportAll (p := fun _ => True) fun _ _ => trivial)

theorem safe_whenChecked {kind : Kind} {m : WalkM Unit} (h : Safe l b m) :
    Safe l b (whenChecked kind m) :=
  .query_bind (fun _ => rfl) fun _ hb => .ite (h.later hb) .plain

theorem safe_closeScope : Safe l b (closeScope scope) :=
  safe_of_reports (p := fun _ => True) fun _ =>
    ⟨_, congrArg Prod.snd closeScope_apply, fun _ _ => trivial⟩

theorem safe_notify {name : String} {role : NameRole} : Safe l b (notify name range role id) :=
  ⟨fun _ hw => hw.sound.passes_rest, fun _ _ => .of_grows .refl .refl rfl rfl rfl,
    fun _ _ => trivial⟩

theorem safe_notifyUnbound {name : String} {symbolClass : SymbolClass} :
    Safe l b (notifyUnbound name range symbolClass) :=
  ⟨fun _ hw => hw.sound.passes_rest, fun _ _ => .of_grows .refl .refl rfl rfl rfl,
    fun _ _ => trivial⟩

theorem safe_readUndefined {name : String} : Safe l b (readUndefined name range) :=
  .seq (.adjustFrame (fun _ => rfl) fun _ => rfl) fun _ => safe_report

/-! ## Single symbols -/

/-- A new variable of no scope can be a global. -/
theorem gives_addVariable (hv : b.store.Owns v) (hscope : v.scope = none) :
    Gives l IsGlobal b (add (·.addVariable v)) :=
  .add (fun _ hw =>
    ⟨hw.sound.store.passes_addVariable (hw.owns hv) hscope, isGlobal_addVariable hscope⟩) fun _ _ =>
    .of_eq rfl rfl

/-- A variable may change as long as what identifies it stays and it holds numbers of the store. -/
theorem safe_modifyVariable {f : Variable → Variable}
    (hf : ∀ v, (f v).core = v.core) (hown : ∀ w v, b.After w → w.store.Owns v →
      w.store.Owns (f v)) : Safe l b (changeStore (·.modifyVariable id f)) :=
  .changeStore (fun w hw =>
      hw.sound.store.passes_modifyVariable hf
      (hown w _ hw (hw.sound.store.variable_owned id)))
    fun _ _ => .of_eq rfl rfl

/-- Likewise for a function; its depth and those of its scopes stay. -/
theorem safe_modifyFunction {id : FunctionId} (hid : b.store.Owns id) {f : Function → Function}
    (hf : ∀ x, (f x).depths = x.depths)
    (hown : ∀ w x, b.After w → w.store.Owns x → w.store.Owns (f x)) :
    Safe l b (changeStore (·.modifyFunction id f)) :=
  .changeStore (fun w hw =>
    hw.sound.store.passes_modifyFunction (fun x => part_eq (hf x) Function.core)
      (hown w _ hw (hw.sound.store.closed.functions id (hw.owns hid))))
    fun _ _ => .of_grows .refl (.modify _ _ hf) rfl rfl rfl

/-- Only the chain of the current scope may change its names, and only where `l` allows it. -/
theorem safe_changeChain (hchain : chain = b.frame.scope)
    (hf : ∀ w m, b.After w → w.store.Owns m → w.store.Owns (f m)) : Safe (.only .chain) b
      (changeStore (·.modifyScope chain fun x =>
        { x with chainNarrowed := f x.chainNarrowed })) := by
  refine .changeStore (fun w hw => ?_) fun w hw => .of_modifyScope _ fun _ =>
    ⟨rfl, .inr fun _ _ h => h, .inl ⟨hchain.trans hw.scope_eq.symm, rfl⟩, .inr rfl⟩
  rw [hchain, ← hw.scope_eq]
  have hx := hw.sound.store.closed.scopes _ hw.isOpen.scope
  exact hw.sound.store.passes_modifyScope (fun _ => rfl)
    { hx with chainNarrowed := hf w _ hw hx.chainNarrowed }

theorem safe_modifyReference {id : ReferenceId} {f : Reference → Reference} :
    Safe l b (changeStore (·.modifyReference id f)) :=
  .changeStore (fun _ hw => hw.sound.store.passes_modifyReference) fun _ _ => .of_eq rfl rfl

theorem safe_reassign (hinfo : b.store.Owns info) :
    Safe l b (changeStore (·.reassign id info)) :=
  .changeStore (fun _ hw => hw.sound.store.passes_reassign (hw.owns hinfo)) fun _ _ =>
    .of_eq rfl rfl

theorem safe_clearNarrowing (hscope : b.store.Owns scope) {name : String} :
    Safe l b (changeStore (·.clearNarrowing scope name)) :=
  .changeStore (fun _ hw => hw.sound.store.passes_clearNarrowing (hw.owns hscope)) fun _ _ =>
    .clearNarrowing

theorem safe_bindReference (binding : Binding) :
    Safe l b (bindReference info binding) := by
  unfold bindReference
  split
  · exact safe_modifyReference
  · exact .plain

/-! ## Declaring -/

/-- The only change is in the locals of the current scope. -/
theorem safe_declareQuietly (hv : b.store.Owns v) :
    Safe (.only .locals) b (declareQuietly v) where
  passes w hw := by
    have hown : w.store.Owns { v with owner := some w.frame.function } :=
      { hw.owns hv with owner := owns_some.2 hw.isOpen.function }
    exact hw.sound.passes_store (hw.sound.store.passes_declared hw.isOpen.scope hown)
  restores w _ := by
    have hadd : Restores (.only .locals) w
        { w with store := (w.store.addVariable { v with owner := some w.frame.function }).1 } :=
        .of_eq rfl rfl
    have hdeclare := hadd.trans (.of_modifyScope w.frame.scope
      (f := fun x =>
        { x with locals := x.locals.alter v.name fun vs => vs.getD [] ++ [⟨w.store.vars.size⟩] })
      fun _ => ⟨rfl, .inr fun _ _ h => h, .inr rfl, .inl ⟨rfl, rfl⟩⟩)
    exact hdeclare.trans (.of_eq rfl rfl)
  gives _ _ := owns_declared_iff.2 (.inr rfl)

theorem safe_declare (hv : b.store.Owns v) : Safe (.only .locals) b (declare v) :=
  .seq (safe_declareQuietly hv) fun _ => safe_notify

/-! ## Checks -/

theorem safe_checkMaybeNil {name : String} : Safe l b (checkMaybeNil name range) := by
  refine .get_bind fun w _ => .ite .plain ?_
  split
  · exact .ite safe_report .plain
  · exact .plain

theorem safe_checkIndexed {obj : Exp} : Safe l b (checkIndexed obj) := by
  unfold checkIndexed
  split
  · exact safe_checkMaybeNil
  · exact .plain

/-! ## Copies of what other files define -/

variable {env : WalkEnv} {w : Walk}

/-- A copy of a variable of another sound store is a variable of no scope here. -/
theorem gives_importFrom {found : FileAnalysis × VariableId} (hstore : found.1.store.Sound)
    (hv : found.1.store.Owns found.2) : Gives l IsGlobal b (importFrom found) :=
  .add (fun _ hw => hw.sound.store.passes_importVariable hstore hv) fun _ _ =>
    .of_rests (copiesFrom_importVariable _ _ _ _).rests

/-! ## Looking up and reading -/

section

variable (h : env.firstPass.Sound)
include h

/-- Whatever provides a name, fetching it gives a variable of no scope. -/
theorem gives_fetch {name : String} {p : Provider} (hw : b.After w) (hp : Provides env w name p) :
    Gives l IsGlobal w (fetch p) := by
  cases hp with
  | own hid =>
    exact .pure fun _ hu =>
      hu.isGlobal (hid.elim (hw.sound.frame.globals.get? _) (hw.sound.frame.rootGlobals.get? _))
  | shared hid =>
    exact .pure fun _ hu =>
      hu.isGlobal (hid.elim (hw.sound.tables.globals.get? _) (hw.sound.tables.rootGlobals.get? _))
  | file hd => exact gives_importFrom (hd.owned h).1 (hd.owned h).2

/-- A name that is known already as a global gives a global, and otherwise nothing. -/
theorem gives_known? {m : WalkM (Option VariableId)} {e : Event} {name : String}
    (hkey : e.globalKey? = some name) (hm : ∀ w, m w = fetch? (known? env w e) w) :
    Gives l MayBeGlobal b m := by
  refine .of_run fun w hw => ?_
  rw [hm w]
  cases hp : known? env w e with
  | none => exact ⟨hw.sound.passes_refl, .refl, nofun⟩
  | some p =>
    have hfetch := gives_fetch (l := l) h hw (provides_known? hkey hp)
    exact ⟨hfetch.passes w hw.here, hfetch.restores w hw.here,
      fun _ hv => Option.some.inj hv ▸ hfetch.gives w hw.here⟩

/-- What a lookup finds is a variable of the store: of a scope, of the file, or a copy. -/
theorem safe_lookup {name : String} : Safe l b (lookup env name) := by
  refine .of_run fun w hw => ?_
  have hlooks := looks_lookup env w name
  generalize lookup env name w = out at hlooks ⊢
  cases hlooks with
  | bound hid => exact ⟨hw.sound.passes_refl, .refl, hw.sound.store.lookupLocal?_owned _ hid⟩
  | seen _ hp =>
    have hfetch := gives_fetch (l := l) h hw (provides_seen? hp)
    exact ⟨hfetch.passes w hw.here, hfetch.restores w hw.here, (hfetch.gives w hw.here).1⟩
  | unseen _ _ hm =>
    cases hm with
    | builtin | lost => exact ⟨hw.sound.passes_refl, .refl, trivial⟩
    | waits _ _ hfound hres =>
      obtain ⟨hstore, hv⟩ := (defines_unfinishedDefinition? hfound).owned h
      have himport := gives_importFrom (l := l) (b := w) hstore hv
      refine ⟨himport.passes w hw.here, himport.restores w hw.here, ?_⟩
      have hid := (himport.gives w hw.here).1
      rw [hres]
      split
      · exact hid
      · exact hid

end

theorem safe_infoOf (hid : b.store.Owns id) : Safe l b (ask (·.infoOf id)) :=
  .ask fun _ hw => hw.sound.store.infoOf_owned (hw.owns hid)

theorem owns_ofKind : s.Owns (ValueInfo.ofKind kind) :=
  ⟨owns_none, owns_none, owns_none⟩

theorem owns_unknown : s.Owns ValueInfo.unknown :=
  ⟨owns_none, owns_none, owns_none⟩

/-- A read binds a reference to a variable of the store or to none. -/
theorem safe_readName (h : env.firstPass.Sound) {name : String} :
    Safe l b (readName env name range) := by
  refine .bind (safe_lookup h) fun found b' _ hfound => ?_
  cases found with
  | found id =>
    have hid : b'.store.Owns id := hfound
    exact .seq (safe_modifyVariable (fun _ => rfl) fun _ _ _ hv => { hv with }) fun _ =>
      .seq safe_notify fun _ => safe_infoOf hid
  | tooEarly id origin =>
    have hid : b'.store.Owns id := hfound
    refine .frame_bind fun b'' hb => ?_
    have hread : Safe l b'' (notify name range .read id >>= fun _ => ask (·.infoOf id)) :=
      .seq safe_notify fun _ => safe_infoOf (hb.owns hid)
    exact .ite (.seq safe_report fun _ => hread) hread
  | builtin => exact .seq safe_notifyUnbound fun _ => .pure fun _ _ => owns_ofKind
  | unresolved =>
    exact .seq safe_notifyUnbound fun _ => .frame_bind fun _ _ => .ite
      (.seq safe_readUndefined fun _ => .pure fun _ _ => owns_unknown)
      (.pure fun _ _ => owns_unknown)

/-! ## Narrowed names -/

/-- What a name means at the current place is a variable of the store. -/
theorem currentBinding?_owned (h : w.Sound) {name : String} :
    w.store.Owns (currentBinding? w name) :=
  h.store.lookupLocal?_owned.orElse
    (h.frame.globals.owns.get?.orElse h.tables.globals.owns.get?)

theorem bound_owned (h : w.Sound) {names : List String} :
    ∀ e ∈ names.filterMap fun name => (currentBinding? w name).map (name, ·), w.store.Owns e.2 := by
  intro e he
  obtain ⟨name, -, hmap⟩ := List.mem_filterMap.1 he
  obtain ⟨v, hv, rfl⟩ := Option.map_eq_some_iff.1 hmap
  exact currentBinding?_owned h v hv

/-- The scope of a branch gets the names proven for it, each with the variable that it means. -/
theorem safe_applyNarrowing (hchain : b.store.Owns chain) :
    Safe .all b (applyNarrowing chain proven) := by
  refine .get_bind fun w hw => .changeStore (fun u hu => ?_) fun u hu =>
    .foldl_modifyScope (g := fun _ => w.frame.scope) _ fun _ _ => .of_current hu.scope_eq.symm rfl
  refine hu.sound.store.passes_narrowAll (hu.owns hw.isOpen.scope) fun e he => hu.owns ?_
  rcases List.mem_append.1 he with he | he
  · have hnarrowed := (hw.sound.store.closed.scopes chain (hw.owns hchain)).chainNarrowed
    exact hnarrowed e.2 (List.mem_map.2 ⟨e, (List.mem_filter.1 he).1, rfl⟩)
  · exact bound_owned hw.sound e he

theorem owns_foldl_insert {entries : List (String × VariableId)}
    (hentries : ∀ e ∈ entries, s.Owns e.2) {m : OrderedMap String VariableId} (hm : s.Owns m) :
    s.Owns (entries.foldl (fun m (name, v) => m.insert name v) m) := by
  induction entries generalizing m with
  | nil => exact hm
  | cons e entries ih =>
    rw [List.forall_mem_cons] at hentries
    exact ih hentries.2 (hm.insert hentries.1)

/-- The names proven by a chain are kept with the scope that the chain stands in. -/
theorem safe_narrowChain (hchain : chain = b.frame.scope) :
    Safe (.only .chain) b (narrowChain chain proven) :=
  .get_bind fun _ hw => safe_changeChain (hchain.trans hw.scope_eq.symm) fun _ _ hu hm =>
    owns_foldl_insert (fun e he => hu.owns (bound_owned hw.sound e he)) hm

/-! ## Assignments -/

/-- Assigning to a local changes what is known of its value, and no scope. -/
theorem safe_assignLocal {name : String} (hinfo : b.store.Owns info) :
    Safe l b (assignLocal id name range info statement) := by
  have hsite : Safe l b (changeStore (·.modifyVariable id fun v =>
      if v.flags.used then v else { v with assignSites := v.assignSites ++ [statement] })) := by
    refine safe_modifyVariable (fun v => ?_) fun w v _ hv => ?_
    · split <;> rfl
    · split
      · exact hv
      · exact { hv with }
  refine .seq (safe_of_reports reports_checkWrite) fun _ => .seq hsite fun _ =>
    .seq (safe_reassign hinfo) fun _ => ?_
  refine .frame_bind fun b' hb => .seq (safe_clearNarrowing hb.isOpen.scope) fun _ => ?_
  exact .seq (safe_bindReference _) fun _ => safe_notify

/-- The globals of the file may change as long as they stay variables of no scope. -/
theorem safe_insertGlobal
    (hf : ∀ w m, b.After w → w.store.OwnsGlobals m → w.store.OwnsGlobals (f m)) :
    Safe l b (changeFrame fun x => { x with globals := f x.globals }) :=
  .changeFrame fun w hw => ⟨{ hw.sound.frame with
    place := .inr hw.placed, globals := hf w _ hw hw.sound.frame.globals }, rfl⟩

/-- The assigned variable is a global of the file from here on. -/
theorem safe_assignGlobal (hid : b.store.IsGlobal id) {name : String} (hinfo : b.store.Owns info) :
    Safe l b (assignGlobal id name range info) := by
  refine .seq (safe_of_reports reports_checkWrite) fun _ =>
    .seq (safe_reassign hinfo) fun _ => ?_
  refine .frame_bind fun b' hb => .seq (safe_clearNarrowing hb.isOpen.scope) fun _ => ?_
  exact .seq (safe_insertGlobal fun w m hw hm =>
    hm.insertIfNew name (hw.isGlobal (hb.isGlobal hid))) fun _ =>
    safe_notify

/-- A global is defined by a variable that is known already, or by a new one. -/
theorem safe_defineGlobal {name : String} (hinfo : b.store.Owns info) :
    Safe l b (defineGlobal env name range info statement) := by
  refine .frame_bind fun b₁ hb₁ => .ask_bind fun b₂ hb₂ => ?_
  have hbare := hb₂.sound.store.variableFrom_owned
    (hb₂.owns (hb₁.owns hinfo)) name b₁.frame.file range
  have hrest : ∀ v : Variable, b₂.store.Owns v → v.scope = none → Safe l b₂
      (add (·.addVariable v) >>= fun id =>
        changeFrame (fun f => { f with globals := f.globals.insert name id }) >>=
        fun _ => changeTables env (·.defineGlobal name id) >>= fun _ =>
        notify name range .declaration id) := by
    intro v hv hscope
    refine .bind (gives_addVariable hv hscope) fun id b₃ _ hid => ?_
    refine .seq (safe_insertGlobal fun w m hw hm => hm.insert name (hw.isGlobal hid)) fun _ => ?_
    refine .seq (.changeTables fun w hw => ?_) fun _ => safe_notify
    exact { hw.sound.tables with
      globals := hw.sound.tables.globals.insertIfNew name (hw.isGlobal hid) }
  have hdefine := hrest
    { b₂.store.variableFrom name b₁.frame.file range info with
      declaredType := b₁.frame.annotations.declaredType? statement.start.line
      flags.constant := b₁.frame.annotations.isConstant statement.start.line }
    { hbare with } (scope_variableFrom _ _ _ _ _)
  dsimp only
  split
  · exact .seq (safe_of_reports reports_checkAssignedType) fun _ => hdefine
  · exact hdefine

section

variable (h : env.firstPass.Sound) (name : String)
include h name

/-- An assignment to a name: to a local if a scope declares it, to a global otherwise. -/
theorem safe_assignName (hinfo : b.store.Owns info) :
    Safe l b (assignName env name range info statement) := by
  refine .frame_bind fun b₁ hb₁ => .ask_bind fun b₂ hb₂ => ?_
  have hinfo₂ := hb₂.owns (hb₁.owns hinfo)
  split
  · exact safe_assignLocal hinfo₂
  · refine .bind (gives_known? h rfl fun w => knownGlobal?_apply env name w default)
      fun known b₃ hb₃ hknown => ?_
    have hbind : Safe l b₃ (bindReference info .toGlobal) := safe_bindReference _
    split
    · next id => exact .seq (safe_assignGlobal (hknown id rfl) (hb₃.owns hinfo₂)) fun _ => hbind
    · exact .seq (safe_defineGlobal (hb₃.owns hinfo₂)) fun _ => hbind

theorem safe_assignRootGlobal (hinfo : b.store.Owns info) :
    Safe l b (assignRootGlobal env name range info) := by
  -- Whether the variable is new or known, it is entered among the globals and the members of the
  -- root.
  have hrest : ∀ (b' : Walk) (id : VariableId) (role : NameRole), b'.store.IsGlobal id →
    b'.store.Owns info → Safe l b'
      (changeFrame (fun f => { f with
        rootGlobals := f.rootGlobals.insertIfNew name id, globals :=
          f.globals.insertIfNew name id }) >>= fun _ =>
          bindReference info .toGlobal >>= fun _ => notify name range role id) := by
    intro b' id role hid hinfo
    refine .seq (.changeFrame fun w hw => ?_) fun _ => .seq (safe_bindReference _) fun _ =>
      safe_notify
    have hw' := hw.isGlobal hid
    exact ⟨⟨.inr hw.placed, hw.sound.frame.globals.insertIfNew name hw',
      hw.sound.frame.rootGlobals.insertIfNew name hw', hw.sound.frame.references⟩, rfl⟩
  refine .bind (gives_known? h rfl fun w => knownRootGlobal?_apply env name w default)
    fun known b₁ hb₁ hknown => ?_
  have hinfo₁ := hb₁.owns hinfo
  split
  · next id =>
    exact .seq (safe_reassign hinfo₁) fun _ => hrest b₁ id _ (hknown id rfl) hinfo₁
  · refine .frame_bind fun b₂ hb₂ => .ask_bind fun b₃ hb₃ => ?_
    have hinfo₃ := hb₃.owns (hb₂.owns hinfo₁)
    have hv := hb₃.sound.store.variableFrom_owned hinfo₃ name b₂.frame.file range
    refine .bind (gives_addVariable { hv with } (scope_variableFrom _ _ _ _ _))
      fun id b₄ hb₄ hid => ?_
    refine .seq (.changeTables fun w hw => ?_) fun _ => hrest b₄ id _ hid (hb₄.owns hinfo₃)
    have hw' := hw.isGlobal hid
    exact ⟨hw.sound.tables.globals.insertIfNew name hw',
      hw.sound.tables.rootGlobals.insertIfNew name hw', hw.sound.tables.files⟩

end

/-! ## Members -/

/-- A member that is there gets the new value; otherwise the owner gets a new variable of no scope.
-/
theorem safe_setMember {owner : VariableId} (key : String) (range : TextRange)
    (hinfo : b.store.Owns info) : Safe l b (setMember owner key range info) := by
  refine .ask_bind fun b₁ hb₁ => ?_
  split
  · exact safe_reassign (hb₁.owns hinfo)
  · refine .frame_bind fun b₂ hb₂ => .ask_bind fun b₃ hb₃ => ?_
    have hlater := (hb₁.trans hb₂).trans hb₃
    have hv := hb₃.sound.store.variableFrom_owned (hlater.owns hinfo) key b₂.frame.file range
    refine .bind (gives_addVariable hv (scope_variableFrom _ _ _ _ _)) fun id b₄ hb₄ hid => ?_
    exact safe_modifyVariable (fun _ => rfl) fun w v hw hv =>
      { hv with members := hv.members.insert (hw.owns hid.1) }

/-- The owner of a member chain is reached by reading its base and following members. -/
theorem safe_memberOwner? (h : env.firstPass.Sound) : Safe l b (memberOwner? env base path) :=
  .bind (safe_readName h) fun _ _ _ hinfo => .seq safe_checkMaybeNil fun _ =>
    .ask fun _ hw => hw.sound.store.memberAlong?_owned (hw.owns hinfo.var)

theorem safe_assignMember (h : env.firstPass.Sound) {key : Name} (hinfo : b.store.Owns info) :
    Safe l b (assignMember env base path key info) := by
  refine .ite (.seq (.discard (safe_readName h)) fun _ => safe_assignRootGlobal h _ hinfo)
    (.bind (safe_memberOwner? h) fun owner b' hb _ => ?_)
  split
  · exact safe_setMember _ _ (hb.owns hinfo)
  · exact .plain

theorem safe_memberInfo {owner : ValueInfo} {key : String} :
    Safe l b (memberInfo owner key range) := by
  unfold memberInfo
  split
  · exact .pure fun _ _ => owns_unknown
  · next v _ =>
    refine .ask_bind fun b' hb => ?_
    split
    · next member hmember => exact safe_infoOf (hb.sound.store.memberOf?_owned member hmember)
    · exact .seq (safe_of_reports reports_checkMember.whenChecked) fun _ => .pure fun _ _ =>
        owns_unknown

/-! ## Functions -/

/-- A new function stands in the current function and scope. -/
theorem gives_addFunction {spec : FunctionSpec} (hparent : spec.parent = some b.frame.function)
    (hscope : spec.parentScope = some b.frame.scope) :
    Gives l IsOriginal b (add (·.addFunction spec)) := by
  refine .add (fun w hw => ?_) fun w _ =>
    .of_grows (w.store.grows_addFunction spec).1 (w.store.grows_addFunction spec).2 rfl rfl rfl
  obtain ⟨hfunction, hplace⟩ := Prod.mk.inj hw.position
  rw [← hfunction] at hparent
  rw [← hplace] at hscope
  refine ⟨hw.sound.store.passes_addFunction ?_ ?_ ?_ ?_, owns_addFunction_iff.2 (.inr rfl),
    fun hcopy => ?_⟩
  · rw [hparent]
    exact owns_some.2 hw.isOpen.function
  · rw [hscope]
    exact owns_some.2 hw.isOpen.scope
  · rw [hscope]
    nofun
  · intro p hp
    obtain rfl : w.frame.scope = p := by simpa [hscope] using hp
    rw [hw.isOpen.own]
    exact hw.isOpen.original
  · rw [importedFunctions_addFunction] at hcopy
    exact absurd (hw.sound.store.closed.functionCopies _ hcopy) (Nat.lt_irrefl _)

/-- A function expression gives a function of the store, never a copy. -/
theorem gives_createFunction {body : FunctionBody} {name : Option String} {hasColon : Bool}
    {types : Option FunctionTypes} :
    Gives l IsOriginal b (createFunction body name hasColon types) := by
  refine .frame_bind fun b₁ _ => .bind (gives_addFunction rfl rfl) fun id b₂ _ hid => ?_
  have hgive : Gives l IsOriginal b₂ (pure id) :=
    .pure fun w hw => ⟨hw.owns hid.1, fun hcopy => hid.2 (hw.retains.originals id hid.1 hcopy)⟩
  split
  · exact .seq (safe_modifyFunction hid.1 (fun _ => rfl) fun _ _ _ hf => { hf with }) fun _ => hgive
  · exact hgive

variable {f : Function} {label : Name}

theorem owns_paramVariable {file : FileId} {param : Name} : s.Owns (paramVariable file f param) :=
  ⟨owns_none, owns_none, owns_none, owns_none, owns_empty⟩

theorem safe_declareSelf (hv : b.store.Owns v) :
    Safe (.only .locals) b (declareSelf f v) := by
  unfold declareSelf
  split
  · next owner _ =>
    refine .ask_bind fun b' hb => .discard (safe_declareQuietly ?_)
    exact { hb.owns hv with members := (hb.sound.store.variable_owned owner).members }
  · exact .discard (safe_declareQuietly hv)

/-- Parameters are locals of the main scope of their function. -/
theorem safe_declareParams {id : FunctionId} {params : List Name} :
    Safe (.only .locals) b (declareParams id params) := by
  refine .frame_bind fun b₁ _ => .ask_bind fun b₂ _ => ?_
  split
  · exact .plain
  · have hrest : ∀ (params : List Name) (file : FileId) (f : Function),
        Safe (.only .locals) b₂ (params.forM fun p => declare (paramVariable file f p)) :=
      fun _ file f => .forM fun p _ => safe_declare owns_paramVariable
    exact .ite (.seq (safe_declareSelf owns_paramVariable) fun _ => hrest _ _ _)
      (.seq (safe_declare owns_paramVariable) fun _ => hrest _ _ _)

/-- The pending gotos are cleared; all else is findings. -/
theorem safe_finishFunction {id : FunctionId} (hid : b.store.Owns id) :
    Safe l b (finishFunction id) := by
  refine .ask_bind fun b' hb =>
    .seq (safe_modifyFunction (hb.owns hid) (fun _ => rfl) fun _ _ _ hf => ?_) fun _ =>
    .seq (.forM fun _ _ => safe_report) fun _ => .ask_bind fun _ _ => safe_closeScope
  exact { hf with pendingGotos := owns_nil }

theorem safe_addGoto : Safe l b (addGoto label) := by
  refine .frame_bind fun b' hb => safe_modifyFunction hb.isOpen.function (fun _ => rfl)
    fun w f hw hf => ?_
  exact { hf with pendingGotos := hf.pendingGotos.snoc (hw.owns hb.isOpen.scope) }

theorem safe_addLabel : Safe l b (addLabel label) := by
  refine .frame_bind fun b' hb => safe_modifyFunction hb.isOpen.function (fun _ => rfl)
    fun w f hw hf => ?_
  exact { hf with labels := hf.labels.alter_snoc (hw.owns hb.isOpen.scope) }

theorem safe_returnedVariable {value : Exp} (hinfo : b.store.Owns info) :
    Safe l b (returnedVariable value info) := by
  unfold returnedVariable
  split
  · next v hv => exact .held (hinfo.var v hv)
  · refine .frame_bind fun b₁ hb₁ => .ask_bind fun b₂ hb₂ => ?_
    have hv := hb₂.sound.store.variableFrom_owned (hb₂.owns (hb₁.owns hinfo)) "" b₁.frame.file
      value.range
    exact (gives_addVariable hv (scope_variableFrom _ _ _ _ _)).mono fun _ _ _ hid => hid.1

/-- A return keeps the values of its expressions with the function. -/
theorem safe_addReturn {ret : ReturnStat} (hinfos : b.store.Owns infos) :
    Safe l b (addReturn ret infos) := by
  refine .frame_bind fun b₁ hb₁ => .ask_bind fun b₂ hb₂ =>
    .seq (safe_of_reports reports_checkReturnTypes) fun _ => ?_
  have hlater := hb₁.trans hb₂
  have hsite : ∀ (b' : Walk) (site : ReturnSite), b₂.After b' → b'.store.Owns site.value →
      Safe l b' (changeStore (·.modifyFunction b₁.frame.function fun f =>
        { f with returns := f.returns ++ [site] })) := by
    intro b' site hb' hvalue
    refine safe_modifyFunction (hb'.owns (hb₂.owns hb₁.isOpen.function)) (fun _ => rfl)
      fun w f hw hf => ?_
    exact { hf with returns := hf.returns.snoc (hw.owns hvalue) }
  split
  · next value _ info _ _ =>
    refine .bind (safe_returnedVariable (hlater.owns (owns_cons.1 hinfos).1)) fun v b₃ hb₃ hv => ?_
    exact hsite b₃ _ hb₃ (owns_some.2 hv)
  · exact hsite b₂ _ hb₂.here owns_none

/-- The function is the value of the name or member that is assigned. -/
theorem safe_assignFunction (h : env.firstPass.Sound) {name : FunctionName} {id : FunctionId}
    (hid : b.store.Owns id) : Safe l b (assignFunction env name id range) := by
  have hinfo : b.store.Owns (ValueInfo.ofFunction id) := ⟨owns_none, owns_some.2 hid, owns_none⟩
  unfold assignFunction
  split
  · exact safe_assignName h _ hinfo
  · refine .ite (.seq (.discard (safe_readName h)) fun _ => safe_assignRootGlobal h _ hinfo)
      (.bind (safe_memberOwner? h) fun owner b' hb howner => ?_)
    split
    · next v last _ =>
      have hset : Safe l b' (setMember v last.text last.range (.ofFunction id)) :=
        safe_setMember _ _ (hb.owns hinfo)
      refine .ite (.ite (.seq (safe_modifyFunction (hb.owns hid) (fun _ => rfl) fun w f hw hf => ?_)
        fun _ => hset) hset) .plain
      exact { hf with colonVariable := owns_some.2 (hw.owns (howner v rfl)) }
    · exact .plain

/-! ## Locals -/

/-- The value for the `i`-th name is among the values, or is what a call or `...` gives. -/
theorem valueAt?_owned (h : s.Owns infos) : s.Owns (valueAt? infos values i) := by
  unfold valueAt?
  split
  · next info hinfo => exact owns_some.2 (h info (List.mem_of_getElem? hinfo))
  · split
    · exact owns_some.2 owns_unknown
    · exact owns_none

theorem valueFor_owned (h : s.Owns infos) (values : List Exp) (i : Nat) :
    s.Owns ((valueAt? infos values i).getD (.ofKind .nil)) := by
  cases hvalue : valueAt? infos values i with
  | none => exact owns_ofKind
  | some info => exact valueAt?_owned h info hvalue

theorem safe_declareLocal (hinfos : b.store.Owns infos) {declaredType : Option String}
    {constant : Bool} {n : LocalName} :
    Safe (.only .locals) b (declareLocal values infos i declaredType constant n) := by
  refine .frame_bind fun b₁ hb₁ => .ask_bind fun b₂ hb₂ => .ask_bind fun b₃ hb₃ => ?_
  have hinfo := valueFor_owned (hb₂.owns (hb₁.owns hinfos)) values i
  have hbare := hb₃.owns
    (hb₂.sound.store.variableFrom_owned hinfo n.name.text b₁.frame.file n.name.range)
  have hscope := b₂.store.scope_variableFrom n.name.text b₁.frame.file n.name.range
    ((valueAt? infos values i).getD (.ofKind .nil))
  generalize b₂.store.variableFrom n.name.text b₁.frame.file n.name.range
    ((valueAt? infos values i).getD (.ofKind .nil)) = bare at hbare hscope ⊢
  dsimp only
  split
  case' h_1 => refine .seq (safe_of_reports reports_checkAssignedType) fun _ => ?_
  all_goals
    refine .seq (safe_declare { hbare with }) fun _ => ?_
    split
    · exact safe_modifyReference
    · exact .plain

/-- Locals of one statement are declared in order, each with the value at its place. -/
theorem safe_declareLocals (hinfos : b.store.Owns infos) (i : Nat) (declaredType : Option String)
    (constant : Bool) {names : List LocalName} :
    Safe (.only .locals) b (declareLocals values infos i declaredType constant names) := by
  induction names generalizing i declaredType constant with
  | nil => exact .plain
  | cons n names ih => exact .seq (safe_declareLocal hinfos) fun _ => ih _ _ _

theorem safe_declareLoopVariable {name : Name} :
    Safe (.only .locals) b (declareLoopVariable name kind) :=
  .frame_bind fun _ _ => safe_declare ⟨owns_none, owns_none, owns_none, owns_none, owns_empty⟩

end WalkM

end LuaAnalysis
