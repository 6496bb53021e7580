import LuaAnalysis.Proofs.Resolution.Mentions
import LuaAnalysis.Proofs.Walk.Names
import LuaAnalysis.Proofs.Walk.Play

/-!
# Walks as traces of events

A walk of a tree takes the steps of the tree's events in order, with quiet steps in between, and
announces what the tree mentions (`Trace`), it builds the tree's scopes (`Goes`), and it plays the
tree's outline. `Tells` says this of a computation at every state that fits its lexical context, and
its rules follow the ways in which the visitors are put together.
-/

namespace LuaAnalysis.WalkM

open List Store

/-! ## Quiet steps -/

/-- No name and no load is involved; the scopes in `free` may have got locals and children. -/
structure Quiet (env : WalkEnv) (free : ScopeId → Prop) (w w' : Walk) : Prop
    extends Nameless env free w w' where
  copies : env.firstPass.MirroredIn w.store → env.firstPass.MirroredIn w'.store

variable {env : WalkEnv} {enter : Enter} {f : α → WalkM β} {w : Walk} {m : WalkM α}
variable {w' w'' w₂ : Walk} {u : Mention} {es : List Event} {e : Event} {target : Option String}

namespace Quiet

variable {free free' : ScopeId → Prop} {w w' w'' : Walk}

theorem trans (h : Quiet env free w w') (h' : Quiet env free w' w'') : Quiet env free w w'' :=
  ⟨h.toNameless.trans h'.toNameless, fun hm => h'.copies (h.copies hm)⟩

theorem weaken (h : Quiet env free w w') (hf : ∀ id, free id → free' id) : Quiet env free' w w' :=
  { h with store := h.store.weaken fun id _ => hf id }

theorem of_frame {f : Frame} (hn : ({ w with frame := f } : Walk).names = w.names)
    (hc : ({ w with frame := f } : Walk).course = w.course) :
    Quiet env free w { w with frame := f } :=
  ⟨⟨⟨.refl, fun _ => rfl, hc⟩, hn⟩, id⟩

theorem of_soundless (h : Soundless env w w') : Quiet env free w w' :=
  ⟨⟨⟨h.store.weaken fun _ _ => False.elim, h.marked, h.course⟩, h.names⟩, h.copies⟩

end Quiet

/-- A quiet step to a place below the same outermost scope. -/
structure Moves (env : WalkEnv) (w w' : Walk) : Prop where
  quiet : Quiet env (· = w.frame.scope) w w'
  scope_lt : w'.frame.scope.index < w'.store.scopes.size
  root : w'.store.rootOf w'.frame.scope = w.store.rootOf w.frame.scope

theorem Moves.of_scope (h : Quiet env (· = w.frame.scope) w w')
    (hscope : w'.frame.scope = w.frame.scope) (hlt : w.frame.scope.index < w.store.scopes.size) :
    Moves env w w' where
  quiet := h
  scope_lt := by
    rw [hscope]
    exact h.store.scope_lt hlt
  root := by rw [hscope, h.store.rootOf_eq hlt]

variable {free : ScopeId → Prop}

theorem isTop_eq (hs : Store.Extends free w.store w'.store)
    (hf : w'.frame.function = w.frame.function)
    (hlt : w.frame.function.index < w.store.functions.size) :
    w'.isTop = w.isTop := by
  rw [Walk.isTop, hf]
  exact part_eq (hs.function_core hlt) (·.depth == 0)

/-! ## Traces -/

/-- A name is read or written, and what is announced for it. -/
inductive Acts (env : WalkEnv) (w : Walk) : Event → Mention → Walk → Prop
  | read (n : Name) (hw : Ready w) :
    Acts env w (.read n.text n.range (w.store.bindingAt? w.frame.scope n.text)
      (w.frame.selfTarget == some n.text) w.isTop)
      { name := n.text, range := n.range, role := .read,
        binding := w.store.bindingAt? w.frame.scope n.text }
      (readName env n.text n.range w).2
  | write (n : Name) (info : ValueInfo) (statement : TextRange) :
    Acts env w (.write n.text n.range (w.store.bindingAt? w.frame.scope n.text))
      { name := n.text, range := n.range, role := .write,
        binding := w.store.bindingAt? w.frame.scope n.text }
      (assignName env n.text n.range info statement w).2
  | writeRoot (n : Name) (info : ValueInfo) :
    Acts env w (.writeRoot n.text n.range) n.global (assignRootGlobal env n.text n.range info w).2

theorem Acts.step (h : Acts env w e u w') : Step env e w w' := by
  cases h with
  | read n hw =>
    have hs := (silent_lookup env n.text).still w
    rw [← isTop_eq hs.store.toExtends (part_eq hs.place Frame.function) hw.function_lt]
    exact step_readName env
  | write n info statement => exact step_assignName env
  | writeRoot n info => exact step_assignRootGlobal env

def announcing (o : Occurrence) (w : Walk) : Walk :=
  { w with occurrences := w.occurrences.push o }

/-- What a quiet step announces: nothing, or a name that is looked up nowhere. -/
inductive Says (env : WalkEnv) (w : Walk) : List Mention → Walk → Prop
  | nothing {w' : Walk} (h : w'.occurrences = w.occurrences) : Says env w [] w'
  | name {u : Mention} {o : Occurrence} (hr : env.files.Reports w.frame.file u o)
      (hfree : u.binding = none → o.declaration = none) : Says env w [u] (announcing o w)

/-- The steps of some events in order, and what is announced on the way: for the events, for
declarations, and for names that are looked up nowhere. -/
inductive Trace (env : WalkEnv) (enter : Enter) : List Event → List Mention → Walk → Walk → Prop
  | done (w : Walk) : Trace env enter [] [] w w
  | quiet {es : List Event} {us ms : List Mention} {w w' w'' : Walk} (h : Moves env w w')
      (hs : Says env w us w')
      (rest : Trace env enter es ms w' w'') : Trace env enter es (us ++ ms) w w''
  | step {e : Event} {u : Mention} {es : List Event} {ms : List Mention} {w w' w'' : Walk}
      (h : Acts env w e u w')
      (rest : Trace env enter es ms w' w'') : Trace env enter (e :: es) (u :: ms) w w''
  | load {l : LoadCall} {es : List Event} {ms : List Mention} {w w'' : Walk}
      (rest : Trace env enter es ms (visit env enter l w).2 w'') :
      Trace env enter (.load l :: es) ms w w''

theorem Trace.moves (hm : Moves env w w') (ho : w'.occurrences = w.occurrences)
    (rest : Trace env enter es ms w' w'') : Trace env enter es ms w w'' :=
  .quiet hm (.nothing ho) rest

theorem Trace.append {es' : List Event} (h : Trace env enter es ms w w')
    (h' : Trace env enter es' ms' w' w'') : Trace env enter (es ++ es') (ms ++ ms') w w'' := by
  induction h with
  | done => exact h'
  | quiet hq hs _ ih =>
    rw [append_assoc]
    exact .quiet hq hs (ih h')
  | step hs _ ih => exact .step hs (ih h')
  | load _ ih => exact .load (ih h')

theorem Trace.append_quiet (h : Trace env enter es ms w w') (hm : Moves env w' w'')
    (ho : w''.occurrences = w'.occurrences) : Trace env enter es ms w w'' := by
  have hall := h.append (.moves hm ho (.done w''))
  rwa [append_nil, append_nil] at hall

/-! ## Lexical contexts -/

/-- A state at a place that `c` describes. -/
structure InContext (env : WalkEnv) (c : Lexical) (w : Walk) : Prop extends Ready w where
  file : w.frame.file = c.file
  imports : env.config.imports = c.imports
  selfTarget : w.frame.selfTarget = c.selfTarget
  top : w.isTop = c.top
  bindings : ∀ name, w.store.bindingAt? w.frame.scope name = c.lookup name

theorem loadOf?_eq (h : InContext env c w) {func : Exp} {args : List Exp} :
    loadOf? env w func args = c.loadOf? func args := by
  simp only [loadOf?, Lexical.loadOf?, h.imports, ← h.bindings, isSome_bindingAt?]

structure Goes (env : WalkEnv) (enter : Enter) (c : Lexical) (ds : List Declaration) (t : Trail)
    (ms : List Mention) (w w' : Walk) : Prop where
  trace : Trace env enter t.events ms w w'
  context : InContext env (c.declare ds) w'
  place : w'.frame.place = w.frame.place
  store : Store.Extends (· = w.frame.scope) w.store w'.store
  locals : w'.store.localsView w.frame.scope = (w.store.localsView w.frame.scope).declareAll ds
  children : ∃ new,
    (w'.store.scopeAt w.frame.scope).children = (w.store.scopeAt w.frame.scope).children ++ new ∧
    new.map w'.store.scopeTree = t.scopes

namespace InContext

variable {c : Lexical} {w w' : Walk}

theorem of_place (h : InContext env c w) (ds : List Declaration)
    (hs : Store.Extends free w.store w'.store) (hp : w'.frame.place = w.frame.place)
    (hb : ∀ name, w'.store.bindingAt? w.frame.scope name = (c.declare ds).lookup name) :
    InContext env (c.declare ds) w' where
  wellFormed := hs.wellFormed h.wellFormed
  scope_lt := by rw [part_eq hp Frame.scope]; exact hs.scope_lt h.scope_lt
  function_lt := by rw [part_eq hp Frame.function]; exact hs.function_lt h.function_lt
  file := (part_eq hp Frame.file).trans h.file
  imports := h.imports
  selfTarget := (part_eq hp Frame.selfTarget).trans h.selfTarget
  top := (isTop_eq hs (part_eq hp Frame.function) h.function_lt).trans h.top
  bindings name := by rw [part_eq hp Frame.scope, hb]

theorem of_extends (h : InContext env c w) (hs : Store.Extends free w.store w'.store)
    (hf : ∀ a : ScopeId, a.index ≤ w.frame.scope.index → ¬ free a)
    (hp : w'.frame.place = w.frame.place) : InContext env c w' :=
  h.of_place [] hs hp fun name => by
    rw [hs.bindingAt?_eq h.wellFormed h.scope_lt hf, h.bindings]
    rfl

end InContext

variable {l : LoadCall}

namespace Goes

variable {c : Lexical} {ds ds' : List Declaration} {t t' : Trail} {ms ms' : List Mention}
  {w w' w'' : Walk}

theorem of_extends (hw : InContext env c w) (hs : Store.Extends (fun _ => False) w.store w'.store)
    (hp : w'.frame.place = w.frame.place) (ht : Trace env enter es ms w w') :
    Goes env enter c [] { events := es } ms w w' where
  trace := ht
  context := hw.of_extends hs (fun _ _ => id) hp
  place := hp
  store := hs.weaken fun _ _ => False.elim
  locals := hs.localsView_eq hw.wellFormed hw.scope_lt id
  children := ⟨[], by rw [hs.children_eq hw.scope_lt id, append_nil], rfl⟩

theorem of_quiet (hw : InContext env c w) (hq : Quiet env (fun _ => False) w w')
    (hp : w'.frame.place = w.frame.place) (ho : w'.occurrences = w.occurrences) :
    Goes env enter c [] {} [] w w' :=
  .of_extends hw hq.store.toExtends hp
    (.moves (.of_scope (hq.weaken fun _ => False.elim) (part_eq hp Frame.scope) hw.scope_lt) ho
      (.done w'))

theorem of_named (hw : InContext env c w) {o : Occurrence} (hr : env.files.Reports c.file u o)
    (hfree : u.binding = none → o.declaration = none) :
    Goes env enter c [] {} [u] w (announcing o w) := by
  rw [← hw.file] at hr
  have hmoves : Moves env w (announcing o w) :=
    .of_scope ⟨⟨⟨.refl, fun _ => rfl, rfl⟩, rfl⟩, id⟩ rfl hw.scope_lt
  have hstore : Store.Extends (fun _ => False) w.store (announcing o w).store := .refl _
  exact .of_extends hw hstore rfl (.quiet hmoves (.name hr hfree) (.done _))

theorem of_acts (hw : InContext env c w) (h : Acts env w e u w') :
    Goes env enter c [] (.event e) [u] w w' :=
  .of_extends hw h.step.store.toExtends h.step.place (.step h (.done w'))

theorem of_load (hw : InContext env c w) (he : enter.Returns) :
    Goes env enter c [] (.event (.load l)) [] w (visit env enter l w).2 := by
  have h : LoadStep env l w (visit env enter l w).2 := loadStep_visitLoad he hw.wellFormed l
  exact .of_extends hw h.store h.place (.load (.done _))

theorem trans (h : Goes env enter c ds t ms w w')
    (h' : Goes env enter (c.declare ds) ds' t' ms' w' w'') (hw : InContext env c w) :
    Goes env enter c (ds ++ ds') (t ++ t') (ms ++ ms') w w'' := by
  have hscope : w'.frame.scope = w.frame.scope := part_eq h.place Frame.scope
  obtain ⟨new, hnew, htrees⟩ := h.children
  obtain ⟨new', hnew', htrees'⟩ := h'.children
  have hlocals := h'.locals
  have hstore := h'.store
  rw [hscope] at hnew' hlocals hstore
  refine
    { trace := h.trace.append h'.trace
      context := c.declare_append ▸ h'.context
      place := h'.place.trans h.place
      store := h.store.trans hstore
      locals := by rw [hlocals, h.locals, Locals.declareAll, Locals.declareAll, Locals.declareAll,
        foldl_append]
      children := ⟨new ++ new', by rw [hnew', hnew, append_assoc], ?_⟩ }
  rw [map_append, htrees', Trail.append_scopes, ← htrees]
  congr 1
  -- The new scopes have greater numbers than the current one, and only that one has changed since.
  refine map_congr_left fun n hn => ?_
  have hlt : w.frame.scope.index < w'.store.scopes.size := h.store.scope_lt hw.scope_lt
  obtain ⟨h1, h2, -⟩ := h.context.wellFormed.child w.frame.scope hlt n (by simp [hnew, hn])
  refine hstore.scopeTree_eq h.context.wellFormed h2 fun a ha _ hfree => ?_
  have hle := w'.store.ancestors_le n ha
  rw [hfree] at hle
  omega

end Goes

/-! ## Scopes inside the current one -/

/-- A new empty scope has been added to the current one. -/
structure Opens (env : WalkEnv) (kind : ScopeKind) (range : TextRange) (w w' : Walk) : Prop where
  quiet : Quiet env (· = w.frame.scope) w w'
  occurrences : w'.occurrences = w.occurrences
  place : w'.frame.place = w.frame.place
  lt : (nextScope w).index < w'.store.scopes.size
  fresh : (w'.store.scopeAt (nextScope w)).kind = kind ∧
    (w'.store.scopeAt (nextScope w)).range = range ∧
    (w'.store.scopeAt (nextScope w)).parent = some w.frame.scope ∧
    (w'.store.scopeAt (nextScope w)).locals = {} ∧
    (w'.store.scopeAt (nextScope w)).children = []
  locals : (w'.store.scopeAt w.frame.scope).locals = (w.store.scopeAt w.frame.scope).locals
  children : (w'.store.scopeAt w.frame.scope).children =
    (w.store.scopeAt w.frame.scope).children ++ [nextScope w]

namespace Opens

variable {kind : ScopeKind} {range : TextRange} {c : Lexical} {w w' : Walk}

theorem fresh_of_extends {s : Store} (h : Opens env kind range w w')
    (hw : w.frame.scope.index < w.store.scopes.size)
    (hs : Store.Extends (· = w.frame.scope) w'.store s) :
    (s.scopeAt (nextScope w)).kind = kind ∧ (s.scopeAt (nextScope w)).range = range ∧
      (s.scopeAt (nextScope w)).parent = some w.frame.scope ∧
      (s.scopeAt (nextScope w)).locals = {} ∧
      (s.scopeAt (nextScope w)).children = [] := by
  have hne : nextScope w ≠ w.frame.scope :=
    fun heq => absurd hw (by rw [← heq]; exact Nat.lt_irrefl _)
  have hshape := hs.scope_shape h.lt
  rw [part_eq hshape Scope.kind, part_eq hshape Scope.range, part_eq hshape Scope.parent,
    hs.locals_eq h.lt hne, hs.children_eq h.lt hne]
  exact h.fresh

theorem localsView_eq (h : Opens env kind range w w') (hw : InContext env c w) :
    w'.store.localsView w.frame.scope = w.store.localsView w.frame.scope :=
  localsView_congr h.locals fun v hv =>
    Variable.key_of_core (h.quiet.store.variable_core (hw.wellFormed.locals_lt _ hw.scope_lt v hv))

theorem inContext (h : Opens env kind range w w') (hw : InContext env c w) :
    InContext env c w' := by
  refine hw.of_place [] h.quiet.store.toExtends h.place fun name => ?_
  refine Eq.trans ?_ (hw.bindings name)
  rw [bindingAt?_eq, bindingAt?_eq, h.quiet.store.ancestors_eq hw.scope_lt]
  refine findSome?_congr fun a ha => ?_
  by_cases hscope : a = w.frame.scope
  · rw [hscope, h.localsView_eq hw]
  · have hlt := Nat.lt_of_le_of_lt (w.store.ancestors_le a ha) hw.scope_lt
    rw [h.quiet.store.localsView_eq hw.wellFormed hlt hscope]

end Opens

theorem InContext.inside {c : Lexical} {n : ScopeId} {top : Bool} (hw : InContext env c w)
    (htop : w'.isTop = top) (hq : Quiet env (fun _ => False) w w') (hscope : w'.frame.scope = n)
    (ht : w'.frame.selfTarget = target) (hn : n.index < w.store.scopes.size)
    (hf : w'.frame.function.index < w.store.functions.size) (hlt : w.frame.scope.index < n.index)
    (hp : (w.store.scopeAt n).parent = some w.frame.scope) (hl : (w.store.scopeAt n).locals = {}) :
    InContext env { c with selfTarget := target, top } w' where
  wellFormed := hq.store.wellFormed hw.wellFormed
  scope_lt := by rw [hscope]; exact hq.store.scope_lt hn
  function_lt := hq.store.function_lt hf
  file := (congrArg Course.file hq.course).trans hw.file
  imports := hw.imports
  selfTarget := ht
  top := htop
  bindings name := by
    rw [hscope, hq.store.bindingAt?_eq hw.wellFormed hn (fun _ _ => id),
      bindingAt?_of_empty hp hlt hl, hw.bindings]
    rfl

/-! The walk goes into a scope `n`, does something there and comes back. -/

section Inside

variable {c : Lexical} {ds : List Declaration} {t : Trail} {ms : List Mention} {n : ScopeId}
  {w w₁ w₂ w' : Walk}

section

variable (hq : Quiet env (fun _ => False) w w₁) (hscope : w₁.frame.scope = n)
  (hbody : Goes env enter c ds t ms w₁ w₂) (hq' : Quiet env (fun _ => False) w₂ w')
include hq hscope hbody hq'

theorem Goes.extends_inside : Store.Extends (· = n) w.store w'.store := by
  have hstore := hbody.store
  rw [hscope] at hstore
  exact ((hq.store.toExtends.weaken fun _ _ => False.elim).trans hstore).trans
    (hq'.store.toExtends.weaken fun _ _ => False.elim)

theorem Goes.localsView_inside (hw : w.store.WellFormed) (hn : n.index < w.store.scopes.size) :
    w'.store.localsView n = Locals.declareAll (w.store.localsView n) ds := by
  have hlocals := hbody.locals
  rw [hscope] at hlocals
  have hn₂ : n.index < w₂.store.scopes.size := hbody.store.scope_lt (hq.store.scope_lt hn)
  rw [hq'.store.localsView_eq hbody.context.wellFormed hn₂ id, hlocals,
    hq.store.localsView_eq hw hn id]

theorem Goes.children_inside (hn : n.index < w.store.scopes.size) :
    ∃ new, (w'.store.scopeAt n).children = (w.store.scopeAt n).children ++ new ∧
      new.map w'.store.scopeTree = t.scopes := by
  obtain ⟨new, hnew, htrees⟩ := hbody.children
  rw [hscope] at hnew
  have hwf₂ := hbody.context.wellFormed
  have hn₂ : n.index < w₂.store.scopes.size := hbody.store.scope_lt (hq.store.scope_lt hn)
  refine ⟨new, ?_, ?_⟩
  · rw [hq'.store.children_eq hn₂ id, hnew, hq.store.children_eq hn id]
  · rw [← htrees]
    refine map_congr_left fun x hx => ?_
    obtain ⟨-, hx₂, -⟩ := hwf₂.child n hn₂ x (by simp [hnew, hx])
    exact hq'.store.scopeTree_eq hwf₂ hx₂ fun _ _ _ => id

theorem Goes.scopeTree_inside (hw : w.store.WellFormed) (hn : n.index < w.store.scopes.size)
    (hlocals : (w.store.scopeAt n).locals = {}) (hchildren : (w.store.scopeAt n).children = []) :
    w'.store.scopeTree n =
      .node (w.store.scopeAt n).kind (w.store.scopeAt n).range
        (Locals.declareAll {} ds) t.scopes := by
  have hwhole := hbody.extends_inside hq hscope hq'
  have hshape := hwhole.scope_shape hn
  have hempty : w.store.localsView n = {} := by
    rw [Store.localsView, hlocals]
    rfl
  obtain ⟨new, hnew, htrees⟩ := hbody.children_inside hq hscope hq' hn
  rw [(hwhole.wellFormed hw).scopeTree_eq (hwhole.scope_lt hn), part_eq hshape Scope.kind,
    part_eq hshape Scope.range, hbody.localsView_inside hq hscope hq' hw hn, hempty, hnew,
    hchildren, nil_append, htrees]

theorem Goes.trace_inside (ho : w₁.occurrences = w.occurrences)
    (ho' : w'.occurrences = w₂.occurrences) (hback : w'.frame.scope = w.frame.scope)
    (hn : n.index < w.store.scopes.size) (hlt : w.frame.scope.index < n.index)
    (hparent : (w.store.scopeAt n).parent = some w.frame.scope) :
    Trace env enter t.events ms w w' := by
  have hscope₂ : w₂.frame.scope = n := (part_eq hbody.place Frame.scope).trans hscope
  have hn₁ := hq.store.scope_lt hn
  have hlt₂ : w.frame.scope.index < w₂.store.scopes.size :=
    hbody.store.scope_lt (Nat.lt_trans hlt hn₁)
  have hinto : Moves env w w₁ :=
    { quiet := hq.weaken fun _ => False.elim
      scope_lt := by rw [hscope]; exact hn₁
      root := by rw [hscope, hq.store.rootOf_eq hn, rootOf_of_parent hparent hlt] }
  have hout : Moves env w₂ w' :=
    { quiet := hq'.weaken fun _ => False.elim
      scope_lt := by rw [hback]; exact hq'.store.scope_lt hlt₂
      root := by
        rw [hback, hscope₂, hq'.store.rootOf_eq hlt₂]
        refine (rootOf_of_parent ?_ hlt).symm
        rw [hbody.store.parent_eq hn₁, hq.store.parent_eq hn, hparent] }
  exact .moves hinto ho (hbody.trace.append_quiet hout ho')

end

end Inside

theorem Goes.inScope {c' : Lexical} {kind : ScopeKind} {range : TextRange} {w₁ w₃ w₄ w₅ : Walk}
    (hw : InContext env c w) (hopen : Opens env kind range w w₁)
    (hmid : Goes env enter c ds { events := es } ms w₁ w₂) (hq : Quiet env (fun _ => False) w₂ w₃)
    (ho : w₃.occurrences = w₂.occurrences) (hscope : w₃.frame.scope = nextScope w)
    (hbody : Goes env enter c' ds' t ms' w₃ w₄) (hq' : Quiet env (fun _ => False) w₄ w₅)
    (ho' : w₅.occurrences = w₄.occurrences) (hplace : w₅.frame.place = w.frame.place) :
    Goes env enter c ds ({ events := es } ++ t.inScope kind range ds') (ms ++ ms') w w₅ := by
  have hlt : w.frame.scope.index < (nextScope w).index := hw.scope_lt
  have hne : ¬ w.frame.scope = nextScope w := fun h => absurd hlt (by simp [h])
  have hscope₁ : w₁.frame.scope = w.frame.scope := part_eq hopen.place Frame.scope
  have hscope₂ : w₂.frame.scope = w.frame.scope := (part_eq hmid.place Frame.scope).trans hscope₁
  have hstore := hmid.store
  have hlocals := hmid.locals
  obtain ⟨new, hnew, htrees⟩ := hmid.children
  rw [hscope₁] at hstore hlocals hnew
  obtain rfl : new = [] := map_eq_nil_iff.1 htrees
  have hwf := hmid.context.wellFormed
  have hn := hstore.scope_lt hopen.lt
  have hs := Nat.lt_trans hlt hn
  -- The new scope is still empty when the walk gets into it, and from then on only the new scope
  -- gets contents.
  obtain ⟨hkind, hrange, hparent, hempty, hchildren⟩ := hopen.fresh_of_extends hw.scope_lt hstore
  have hinside := hbody.extends_inside hq hscope hq'
  have htree := hbody.scopeTree_inside hq hscope hq' hwf hn hempty hchildren
  have htrace : Trace env enter t.events ms' w₂ w₅ := by
    refine hbody.trace_inside hq hscope hq' ho ho' ?_ hn ?_ ?_
    · rw [part_eq hplace Frame.scope, hscope₂]
    · rw [hscope₂]
      exact hlt
    · rw [hscope₂]
      exact hparent
  exact
    { trace := .moves (.of_scope hopen.quiet hscope₁ hw.scope_lt) hopen.occurrences
        (hmid.trace.append htrace)
      context := by
        refine hmid.context.of_extends hinside (fun a ha hfree => ?_) ?_
        · rw [hscope₂, hfree] at ha
          omega
        · rw [hplace, hmid.place, hopen.place]
      place := hplace
      store := by
        have hboth : Store.Extends
          (fun id => id = w.frame.scope ∨ id = nextScope w) w.store w₂.store :=
          (hopen.quiet.store.toExtends.trans hstore).weaken fun _ _ => Or.inl
        refine (hboth.trans (hinside.weaken fun _ _ => Or.inr)).weaken ?_
        rintro id hid (rfl | rfl)
        · rfl
        · exact absurd hid (Nat.lt_irrefl _)
      locals := by rw [hinside.localsView_eq hwf hs hne, hlocals, hopen.localsView_eq hw]
      children := by
        refine ⟨[nextScope w], ?_, ?_⟩
        · rw [hinside.children_eq hs hne, hnew, append_nil, hopen.children]
        · simp [htree, hkind, hrange, Trail.inScope] }

theorem Goes.reframe {f g : Frame} (hw : InContext env c w)
    (hbody : Goes env enter (c.withSelfTarget target) [] t ms { w with frame := f } w₂)
    (hplace : g.place = w.frame.place)
    (hscope : f.scope = w.frame.scope) (hf : ({ w with frame := f } : Walk).names = w.names)
    (hc : ({ w with frame := f } : Walk).course = w.course)
    (hg : ({ w₂ with frame := g } : Walk).names = w₂.names)
    (hc' : ({ w₂ with frame := g } : Walk).course = w₂.course) :
    Goes env enter c [] t ms w { w₂ with frame := g } := by
  obtain ⟨htrace, hcontext, hback, hstore, hlocals, hchildren⟩ := hbody
  have hscope₂ : w₂.frame.scope = w.frame.scope := (part_eq hback Frame.scope).trans hscope
  dsimp only at hstore hlocals hchildren
  rw [hscope] at hstore hlocals hchildren
  refine ⟨?_, hw.of_place [] hstore hplace fun name => ?_, hplace, hstore, hlocals, hchildren⟩
  · exact .moves (.of_scope (.of_frame hf hc) hscope hw.scope_lt) rfl
      (htrace.append_quiet (.of_scope (.of_frame hg hc')
      ((part_eq hplace Frame.scope).trans hscope₂.symm) hcontext.scope_lt) rfl)
  · rw [← hscope₂]
    exact hcontext.bindings name

/-! ## Computations -/

def TellsAt (env : WalkEnv) (enter : Enter) (c : Lexical) (ds : List Declaration) (t : Trail)
    (ms : List Mention) (o : Outline) (m : WalkM α) (w : Walk) : Prop :=
  InContext env c w → Plays o w (m w).2 ∧ Goes env enter c ds t ms w (m w).2

def Tells (env : WalkEnv) (enter : Enter) (c : Lexical) (ds : List Declaration) (t : Trail)
    (ms : List Mention) (o : Outline) (m : WalkM α) : Prop :=
  ∀ w, TellsAt env enter c ds t ms o m w

variable {α β : Type} {c : Lexical} {ds ds' : List Declaration} {t t' : Trail}
  {ms ms' : List Mention}
  {o o' : Outline}

theorem TellsAt.bind (hm : TellsAt env enter c ds t ms o m w)
    (hf : (m w).2.frame.scope = w.frame.scope →
      TellsAt env enter (c.declare ds) ds' t' ms' o' (f (m w).1) (m w).2) :
    TellsAt env enter c (ds ++ ds') (t ++ t') (ms ++ ms') (o ++ o') (m >>= f) w := by
  intro hw
  obtain ⟨hplay, hgo⟩ := hm hw
  obtain ⟨hplay', hgo'⟩ := hf (part_eq hgo.place Frame.scope) hgo.context
  exact ⟨hplay.append hplay', hgo.trans hgo' hw⟩

theorem Goes.plain (h : Goes env enter c ds t ms w w') (hw : InContext env c w) (hp : Plain w w') :
    Plays .done w w' ∧ Goes env enter c ds t ms w w' :=
  ⟨.plain hw.toReady hp (.done h.context.toReady), h⟩

namespace Tells

theorem of_silent (h : Silent env m) : Tells env enter c [] {} [] .done m := by
  intro w hw
  have hgo : Goes env enter c [] {} [] w (m w).2 :=
    .of_quiet hw (.of_soundless (h w)) (h w).place (h w).occurrences
  exact hgo.plain hw (.of_still (h.still w))

theorem of_acts (h : ∀ w, InContext env c w → Acts env w e u (m w).2) :
    Tells env enter c [] (.event e) [u] .done m := by
  intro w hw
  have hs := (h w hw).step
  exact (Goes.of_acts hw (h w hw)).plain hw
    (.of_place hs.place hs.store.toExtends hs.functions hs.jumpFindings)

theorem of_load (he : enter.Returns) :
    Tells env enter c [] (.event (.load l)) [] .done (visit env enter l) := by
  intro w hw
  have hs : LoadStep env l w (visit env enter l w).2 := loadStep_visitLoad he hw.wellFormed l
  exact (Goes.of_load hw he).plain hw (.of_place hs.place hs.store hs.functions hs.jumpFindings)

theorem bind (hm : Tells env enter c ds t ms o m)
    (hf : ∀ a, Tells env enter (c.declare ds) ds' t' ms' o' (f a)) :
    Tells env enter c (ds ++ ds') (t ++ t') (ms ++ ms') (o ++ o') (m >>= f) :=
  fun w => (hm w).bind fun _ => hf _ _

theorem silent_bind (hm : Silent env m) (hf : ∀ a, Tells env enter c ds t ms o (f a)) :
    Tells env enter c ds t ms o (m >>= f) :=
  bind (of_silent hm) hf

theorem bind_silent (hm : Tells env enter c ds t ms o m) (hf : ∀ a, Silent env (f a)) :
    Tells env enter c ds t ms o (m >>= f) := by
  have h := bind hm fun a => of_silent (c := c.declare ds) (hf a)
  rwa [append_nil, append_nil, Trail.append_empty, Outline.append_done] at h

theorem seq (hm : Tells env enter c [] t ms o m) (hf : ∀ a, Tells env enter c ds t' ms' o' (f a)) :
    Tells env enter c ds (t ++ t') (ms ++ ms') (o ++ o') (m >>= f) :=
  bind hm hf

theorem bind_declares (hm : Tells env enter c [] t ms o m)
    (hf : ∀ a, Tells env enter c ds {} ms' .done (f a)) :
    Tells env enter c ds t (ms ++ ms') o (m >>= f) := by
  have h := bind hm hf
  rwa [Trail.append_empty, Outline.append_done] at h

theorem map {m : WalkM α} (f : α → β) (hm : Tells env enter c ds t ms o m) :
    Tells env enter c ds t ms o (f <$> m) :=
  hm

theorem discard (hm : Tells env enter c ds t ms o m) : Tells env enter c ds t ms o (discard m) :=
  hm

theorem pure (a : α) : Tells env enter c [] {} [] .done (pure a : WalkM α) :=
  of_silent .pure

theorem frame_bind {f : Frame → WalkM β}
    (hf : ∀ x : Frame, x.file = c.file → Tells env enter c ds t ms o (f x)) :
    Tells env enter c ds t ms o (frame >>= f) :=
  fun w hw => hf w.frame hw.file w hw

theorem get_bind {f : Walk → WalkM β}
    (hf : ∀ w, InContext env c w → Tells env enter c ds t ms o (f w)) :
    Tells env enter c ds t ms o (get >>= f) :=
  fun w hw => hf w hw w hw

theorem ask_bind {g : Store → α} {f : α → WalkM β}
    (hf : ∀ s, Tells env enter c ds t ms o (f (g s))) : Tells env enter c ds t ms o (ask g >>= f) :=
  fun w hw => hf w.store w hw

end Tells

end LuaAnalysis.WalkM
