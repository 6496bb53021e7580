import LuaAnalysis.Proofs.Walk.Visit
import LuaAnalysis.Walk.File

/-!
# Files

A walk of a file follows the trail of its tree in a frame of its own, builds the scopes of the tree
under a new main function, and comes back to the file that it was started from.
-/

namespace LuaAnalysis.WalkM

open Store

variable {env : WalkEnv} {enter : Enter} {f : FileId} {source : SourceFile} {chunk : Chunk}
  {w w' : Walk}
variable {available : List FileId}

/-! ## Into a file and out of it -/

/-- The number that the main function of the next file gets. -/
def nextMain (w : Walk) : FunctionId :=
  ⟨w.store.functions.size⟩

/-- The state in which the tree of a file is walked: a new main function, a new frame, and the file
on the stack of active files. -/
def entering (env : WalkEnv) (f : FileId) (source : SourceFile) (chunk : Chunk) (w : Walk) : Walk :=
  let store := (w.store.addFunction (.main f chunk.range)).1
  { w with
    store
    phase := w.phase.enter f
    frame :=
      { file := f
        path := source.path
        annotations := env.annotations.ofFile source.path
        gate := env.gate source
        function := nextMain w
        scope := (store.functionAt (nextMain w)).mainScope } }

/-- The state after a file: what its walk has found stays, and the frame of the file before it is
back. -/
def leaving (w w' : Walk) : Walk :=
  { w' with phase := w'.phase.leave, frame := w.frame }

/-- What a file gives to those that load it, read from the last state of its walk. -/
def treeResult (f : FileId) (source : SourceFile) (main : FunctionId) (w : Walk) : FileResult where
  file := f
  path := source.path
  globals := w.frame.globals
  rootGlobals := w.frame.rootGlobals
  undefined := w.frame.undefined
  diagnostics := w.frame.findings.toList
  references := w.frame.references
  mainFunction := some main
  returnValue := (w.store.functionAt main).lastValueReturn?.bind (·.value)

/-- The part of a walk that runs in the frame of the file. -/
def walkTree (env : WalkEnv) (enter : Enter) (chunk : Chunk) (main : FunctionId) : WalkM Unit := do
  visitBlock env enter chunk.block
  finishFunction main

/-- The state at the end of a file, with the file still active. -/
def atEnd (env : WalkEnv) (enter : Enter) (f : FileId) (source : SourceFile) (chunk : Chunk)
    (w : Walk) : Walk :=
  (walkTree env enter chunk (nextMain w) (entering env f source chunk w)).2

/-- A walk of a tree is `entering`, `walkTree` and `leaving`; its result is `treeResult`. -/
theorem walkChunk_apply : walkChunk env enter f source chunk w =
      (treeResult f source (nextMain w) (atEnd env enter f source chunk w),
        leaving w (atEnd env enter f source chunk w)) := by
  change (do
    let main ← add (·.addFunction (.main f chunk.range))
    let scope ← ask fun s => (s.functionAt main).mainScope
    let last ← whileEntered f (withFrame
      { file := f, path := source.path, annotations := env.annotations.ofFile source.path,
        gate := env.gate source
        function := main, scope }
      (walkTree env enter chunk main))
    let returnValue ← ask fun s => (s.functionAt main).lastValueReturn?.bind (·.value)
    pure { treeResult f source main { w with frame := last } with returnValue }) w = _
  rw [atEnd]
  generalize walkTree env enter chunk = body
  rfl

theorem scope_entering : (entering env f source chunk w).frame.scope = nextScope w := by
  have h := functionAt_addFunction_new w.store (.main f chunk.range)
  exact congrArg Function.mainScope h

theorem extends_entering (env : WalkEnv) (f : FileId) (source : SourceFile) (chunk : Chunk)
    (w : Walk) : Store.Extends (fun _ => False) w.store (entering env f source chunk w).store :=
  extends_addFunction _ w.store (.main f chunk.range) (fun _ h => nomatch h) fun _ h => nomatch h

theorem mains_entering (hw : w.store.WellFormed) :
    (entering env f source chunk w).store.mains = w.store.mains ++ [nextMain w] :=
  mains_addFunction_main w.store hw

theorem scopeAt_entering (env : WalkEnv) (f : FileId) (source : SourceFile) (chunk : Chunk)
    (w : Walk) : (entering env f source chunk w).store.scopeAt (nextScope w) =
      { kind := .function, parent := none, function := nextMain w, range := chunk.range } := by
  have h := scopeAt_addFunction w.store (.main f chunk.range) (fun _ h => nomatch h) (nextScope w)
  rw [if_pos (show (nextScope w).index = w.store.scopes.size from rfl)] at h
  exact h

theorem scope_lt_entering (env : WalkEnv) (f : FileId) (source : SourceFile) (chunk : Chunk)
    (w : Walk) : (nextScope w).index < (entering env f source chunk w).store.scopes.size := by
  simp [entering, nextScope]

/-- A file starts with nothing declared and at the top, whatever file loads it. -/
theorem inContext_entering (hw : w.store.WellFormed) (f : FileId) (source : SourceFile)
    (chunk : Chunk) :
    InContext env { file := f, imports := env.config.imports } (entering env f source chunk w) where
  wellFormed := (extends_entering env f source chunk w).wellFormed hw
  scope_lt := by
    rw [scope_entering]
    exact scope_lt_entering env f source chunk w
  function_lt := by simp [entering, nextMain]
  file := rfl
  imports := rfl
  selfTarget := rfl
  top := by
    have hnew := congrArg Function.depth (functionAt_addFunction_new w.store (.main f chunk.range))
    exact beq_iff_eq.2 hnew
  bindings name := by
    rw [scope_entering]
    have hscope := scopeAt_entering env f source chunk w
    exact bindingAt?_of_root (congrArg Scope.parent hscope) (congrArg Scope.locals hscope) name

/-- The state after the block of a file and before the jumps of its main function are matched. -/
def treeEnd (env : WalkEnv) (enter : Enter) (f : FileId) (source : SourceFile) (chunk : Chunk)
    (w : Walk) : Walk :=
  (visitBlock env enter chunk.block (entering env f source chunk w)).2

theorem atEnd_eq :
    finishFunction (nextMain w) (treeEnd env enter f source chunk w) =
      ((), atEnd env enter f source chunk w) := by
  rw [atEnd, walkTree, bind_apply, treeEnd]
  generalize finishFunction
    (nextMain w) (visitBlock env enter chunk.block (entering env f source chunk w)).2 = r
  rfl

/-- A walk of a file follows the trail of the tree. -/
theorem goes_atEnd (he : enter.Returns) (hw : w.store.WellFormed) (f : FileId) (source : SourceFile)
    (chunk : Chunk) :
    Goes env enter { file := f, imports := env.config.imports } (chunk.block.declares f)
      (chunk.trail f env.config.imports) (chunk.mentions f) (entering env f source chunk w)
      (atEnd env enter f source chunk w) := by
  have hin : InContext env { file := f, imports := env.config.imports }
    (entering env f source chunk w) :=
    inContext_entering hw f source chunk
  exact (tells_visitBlock he _ chunk.block _ hin).2.finish hin atEnd_eq

/-- A walk of a file's block plays the outline of the tree. -/
theorem plays_treeEnd (he : enter.Returns) (hw : w.store.WellFormed) (f : FileId)
    (source : SourceFile) (chunk : Chunk) :
    Plays chunk.block.outline (entering env f source chunk w)
      (treeEnd env enter f source chunk w) :=
  (tells_visitBlock he _ chunk.block _ (inContext_entering hw f source chunk)).1

/-- The scopes under the new main function are those of the tree. -/
theorem scopeTree_atEnd (he : enter.Returns) (hw : w.store.WellFormed) (f : FileId)
    (source : SourceFile) (chunk : Chunk) :
    (atEnd env enter f source chunk w).store.scopeTree (nextScope w) =
      chunk.scopeTree f env.config.imports := by
  have hgo := @goes_atEnd env enter w he hw f source chunk
  have hstore := hgo.store
  have hlocals := hgo.locals
  obtain ⟨new, hnew, htrees⟩ := hgo.children
  rw [scope_entering] at hstore hlocals hnew
  have hlt := scope_lt_entering env f source chunk w
  have hscope := scopeAt_entering env f source chunk w
  have hshape := hstore.scope_shape hlt
  have hview : (entering env f source chunk w).store.localsView (nextScope w) = {} := by
    rw [Store.localsView, hscope]
    rfl
  rw [hgo.context.wellFormed.scopeTree_eq (hstore.scope_lt hlt), part_eq hshape Scope.kind,
    part_eq hshape Scope.range, hlocals, hview, hnew, hscope, List.nil_append, htrees]
  rfl

/-! ## Coming back -/

/-- Files started on the way have ended: the active files and the load sites are those of the start.
-/
theorem Trace.active_eq (he : enter.Returns) {es : List Event} {ms : List Mention}
    (h : Trace env enter es ms w w') (hw : w.store.WellFormed) :
    w'.phase.active = w.phase.active ∧ w'.loadSites = w.loadSites ∧ w'.store.WellFormed := by
  induction h with
  | done => exact ⟨rfl, rfl, hw⟩
  | quiet hm _ _ ih =>
    obtain ⟨ha, hl, hwell⟩ := ih (hm.quiet.store.wellFormed hw)
    exact ⟨ha.trans hm.quiet.active, hl.trans hm.quiet.loadSites, hwell⟩
  | step hs _ ih =>
    obtain ⟨ha, hl, hwell⟩ := ih (hs.step.store.wellFormed hw)
    exact ⟨ha.trans hs.step.active, hl.trans hs.step.loadSites, hwell⟩
  | @load l _ _ w _ _ ih =>
    have hs : LoadStep env l w (visit env enter l w).2 := loadStep_visitLoad he hw l
    obtain ⟨ha, hl, hwell⟩ := ih (hs.store.wellFormed hw)
    exact ⟨ha.trans hs.active, hl.trans hs.loadSites, hwell⟩

/-- The scopes of functions that were there before the file are left alone. -/
theorem spares_atEnd (he : enter.Returns) (hw : w.store.WellFormed) (f : FileId)
    (source : SourceFile) (chunk : Chunk) :
    w.store.Spares (nextMain w) (atEnd env enter f source chunk w).store := by
  have hplay := (@plays_treeEnd env enter w he hw f source chunk).kept.spares
  have hfinish : (atEnd env enter f source chunk w).store = _ := atEnd_eq ▸ store_finishFunction
  exact ((Store.Spares.addFunction w.store).trans hplay).trans (hfinish ▸ .modify)

/-- After the walk of a tree the file before it goes on where it was. -/
theorem comesBack_walkChunk (he : enter.Returns) (hw : w.store.WellFormed) :
    ComesBack w (walkChunk env enter f source chunk w).2 := by
  have hgo := @goes_atEnd env enter w he hw f source chunk
  have hwell : (entering env f source chunk w).store.WellFormed :=
    (extends_entering env f source chunk w).wellFormed hw
  obtain ⟨hactive, hsites, -⟩ := hgo.trace.active_eq he hwell
  have hinner := hgo.store
  rw [scope_entering] at hinner
  have hfunctions : Grows Function.jumps w.store.functions
      (atEnd env enter f source chunk w).store.functions := by
    have hspares := @spares_atEnd env enter w he hw f source chunk
    refine ⟨hspares.size_le, fun i hi => hspares.jumps ⟨i⟩ (fun h => ?_) hi⟩
    exact Nat.ne_of_lt hi (congrArg FunctionId.index h)
  rw [walkChunk_apply]
  generalize atEnd env enter f source chunk w = w₁ at hinner hactive hsites hfunctions
  refine ⟨?_, hfunctions, rfl, congrArg List.tail hactive, hsites⟩
  -- The walk adds to the main scope of the file only, and that scope is new.
  have hall := ((extends_entering env f source chunk w).weaken fun _ _ => False.elim).trans hinner
  refine hall.weaken fun id hid hnew => ?_
  rw [hnew] at hid
  exact Nat.lt_irrefl _ hid

/-- How a load enters its target, when only the files in `available` may still be started. -/
def enterFrom (env : WalkEnv) (available : List FileId) : Enter := fun target =>
  if target ∈ available then walkFile env (available.erase target) target else pure none

theorem walkFile_of_none (h : env.files.get? f = none) :
    walkFile env available f w = (none, w) := by
  rw [walkFile, h]
  rfl

/-- The result of a file with a syntax error: the error is all that is known of it. -/
def brokenResult (env : WalkEnv) (f : FileId) (source : SourceFile) (e : SyntaxError) :
    FileResult :=
  { file := f, path := source.path,
    diagnostics := [source.syntaxDiagnostic e].filter (env.keeps source) }

/-- A file that does not parse leaves the walk as it is. -/
theorem walkFile_of_error {e : SyntaxError} (h : env.files.get? f = some source)
    (ht : source.source.tree = .error e) :
    walkFile env available f w = (some (brokenResult env f source e), w) := by
  rw [walkFile, h]
  dsimp only
  rw [ht]
  rfl

theorem walkFile_eq_walkChunk (h : env.files.get? f = some source)
    (ht : source.source.tree = .ok chunk) :
    walkFile env available f = some <$> walkChunk env (enterFrom env available) f source chunk := by
  rw [walkFile, h]
  dsimp only
  rw [ht]
  rfl

theorem walkFile_of_ok (h : env.files.get? f = some source) (ht : source.source.tree = .ok chunk) :
    walkFile env available f w =
      (some (treeResult f source
        (nextMain w) (atEnd env (enterFrom env available) f source chunk w)),
        leaving w (atEnd env (enterFrom env available) f source chunk w)) := by
  rw [walkFile_eq_walkChunk h ht, map_apply, walkChunk_apply]

/-- The induction is on the files that may still be started: each load takes one away. -/
theorem comesBack_walkFile :
    ∀ w : Walk, w.store.WellFormed → ComesBack w (walkFile env available f w).2 := by
  induction available, f using walkFile.induct env with
  | case1 available f h =>
    intro w _
    rw [walkFile_of_none h]
    exact .refl
  | case2 available f source h e ht =>
    intro w _
    rw [walkFile_of_error h ht]
    exact .refl
  | case3 available f source h chunk ht ih =>
    intro w hw
    have he : (enterFrom env available).Returns := by
      intro target w hw
      rw [enterFrom]
      split
      · exact ih target ‹_› w hw
      · exact .refl
    have hback : ComesBack w (walkChunk env (enterFrom env available) f source chunk w).2 :=
      comesBack_walkChunk he hw
    rw [walkChunk_apply] at hback
    rw [walkFile_of_ok h ht]
    exact hback

theorem returns_enterFrom (env : WalkEnv) (available : List FileId) :
    (enterFrom env available).Returns := by
  intro target w hw
  rw [enterFrom]
  split
  · exact comesBack_walkFile w hw
  · exact .refl

end LuaAnalysis.WalkM
