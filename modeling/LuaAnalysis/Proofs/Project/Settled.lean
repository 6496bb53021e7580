import LuaAnalysis.Project.Basic
import LuaAnalysis.Proofs.Walk.Guard

/-!
# Members and functions that stay

Walking never takes a member from a settled variable, nor from any variable its function. An
assignment to a variable that is not settled may replace its members (`members_replaced`), and a
call is checked against the first function that its variable was given, also when another one has
been assigned since (`arity_stale`).
-/

namespace LuaAnalysis

namespace WalkM

variable {env : WalkEnv} {available : List FileId} {w : Walk} {v : VariableId} {f : FunctionId}
  {name : String}
  {range : TextRange} {args : List Exp} {infos : List ValueInfo}

theorem settles_of_agrees {m : WalkM α} (h : ∀ start, Keeps (InOneState start) m) (w : Walk) :
    w.store.Settles (m w).2.store :=
  (h w w w ⟨rfl, .of_eq rfl rfl⟩).2.2.settles

theorem paired_enterFrom (start : Walk) :
    Paired id (InOneState start) env env (enterFrom env available) (enterFrom env available) :=
  paired_inOneState fun _ _ _ => ⟨rfl, lasts_visit lasts_enterFrom⟩

theorem lasts_walkEntry (file : FileId) (w : Walk) : Lasts w (walkEntry env file w).2 := by
  rw [walkEntry, bind_apply, get_apply]
  dsimp only
  split
  · exact .of_eq rfl rfl
  · have halone : Lasts w (walkAlone env file w).2 := lasts_walkFile w
    rw [bind_apply]
    refine halone.trans ?_
    cases (walkAlone env file w).1 with
    | some result => exact lasts_changeTables
    | none => exact .of_eq rfl rfl

theorem settles_walkEntries (files : List FileId) (w : Walk) :
    w.store.Settles (files.forM (walkEntry env) w).2.store := by
  induction files generalizing w with
  | nil => exact .refl
  | cons file files ih =>
    rw [forM_cons_apply]
    exact (lasts_walkEntry file w).settles.trans (ih _)

/-- Whatever is walked, a settled variable keeps its members. An assignment takes a member from a
variable exactly if the variable is not settled and the value was held by another one without such a
member. -/
theorem settled_keeps_members (env : WalkEnv) (available : List FileId) (w : Walk) :
    (∀ e, w.store.Settles (visitExp env (enterFrom env available) e w).2.store) ∧
      (∀ stats, w.store.Settles (visitStats env (enterFrom env available) stats w).2.store) ∧
      (∀ file, w.store.Settles (walkFile env available file w).2.store) ∧
      (∀ files : List FileId, w.store.Settles (files.forM (walkEntry env) w).2.store) ∧
      ∀ (v : VariableId) (info : ValueInfo), v.index < w.store.vars.size →
        ∀ name ∈ (w.store.variableAt v).members.keys,
        (name ∉ ((w.store.reassign v info).variableAt v).members.keys ↔
          (w.store.variableAt v).isSettled = false ∧
          ∃ held ∈ info.var, held ≠ v ∧ name ∉ (w.store.variableAt held).members.keys) :=
  ⟨fun e => settles_of_agrees (fun start => (paired_enterFrom start).visitExp e) w,
    fun stats => settles_of_agrees (fun start => (paired_enterFrom start).visitStats stats) w,
    fun _ => (lasts_walkFile w).settles, fun files => settles_walkEntries files w,
    fun _ _ hv _ hname => Store.loses_reassign_iff hv hname⟩

/-! ## The function that a call is checked against -/

def arityFindings (path name : String) (args : List Exp) (range : TextRange) (f : Function) :
    List Diagnostic :=
  if !f.isVararg && f.params.length < surelyGiven args then
    [⟨.callArity,
      s!"'{name}' takes {f.params.length} argument(s) but {surelyGiven args} were given", path,
      range, []⟩]
  else []

theorem findings_checkArity {x : Function} : (checkArity x name args 0 range w).2 =
    withFindings (arityFindings w.frame.path name args range x) w := by
  have hnone : w = withFindings [] w := by simp [withFindings]
  unfold checkArity arityFindings
  cases x.isVararg with
  | true => exact hnone
  | false =>
    rw [if_neg Bool.false_ne_true, whenChecked_eq (.ite reportsOnly_kind .plain)]
    by_cases hmore : x.params.length < surelyGiven args
    · simp [hmore, report_apply]
    · simpa [hmore, pure_apply] using hnone

theorem findings_checkCall {callee : ValueInfo} (h : w.store.calleeOf? callee = some f) :
    ∃ more, (checkCall callee name args infos false range w).2 =
        withFindings (arityFindings w.frame.path name args range (w.store.functionAt f) ++ more) w ∧
      ∀ d ∈ more, d.kind = .argumentType := by
  rw [checkCall, bind_apply, ask_apply, h]
  refine (reports_checkArgumentTypes _).imp fun more hmore => ⟨hmore.1.trans ?_, hmore.2⟩
  rw [← withFindings_append, ← findings_checkArity]
  rfl

section

variable {enter : Enter} (hbound : w.store.lookupLocal? w.frame.scope name = some v)
  (hf : (w.store.variableAt v).function = some f)
include hbound

theorem loadOf?_of_bound : loadOf? env w (.name range name) args = none := by
  simp only [loadOf?, Exp.asName?, Option.bind_eq_bind, Option.bind_some, hbound,
    Option.isSome_some, if_true]
  cases LoadKind.ofFunction? env.config.imports name <;> rfl

include hf

theorem function_readName : (readName env name range w).1.function = some f := by
  have hlookup : lookup env name w = (.found v, w) := by
    simp only [lookup, bind_apply, get_apply, hbound]
    rfl
  rw [readName, bind_apply, hlookup]
  change ((w.store.modifyVariable v fun x => { x with flags.used := true }).variableAt v).function =
    some f
  rw [Store.variableAt_modifyVariable]
  split
  · exact hf
  · exact hf

/-- A call of a local is checked against the function of the variable. -/
theorem findings_visitCall {nameRange : TextRange} : let w' :=
  (visitExps env enter args (readName env name nameRange w).2).2
    ∃ more, (visitExp env enter (.call range (.name nameRange name) args) w).2 =
        withFindings (arityFindings w'.frame.path name args range (w'.store.functionAt f) ++
          more) w' ∧
      ∀ d ∈ more, d.kind = .argumentType := by
  intro w'
  have hcallee : w'.store.calleeOf? (readName env name nameRange w).1 = some f := by
    rw [Store.calleeOf?, function_readName hbound hf]
    rfl
  have hcall : visitExp env enter (.call range (.name nameRange name) args) w = (do
      checkCall (readName env name nameRange w).1 name args
        (visitExps env enter args (readName env name nameRange w).2).1 false range
      ask (·.callResult (readName env name nameRange w).1) : WalkM ValueInfo) w' := by
    rw [visitExp, bind_apply, get_apply]
    dsimp only
    rw [loadOf?_of_bound hbound]
    rfl
  rw [hcall]
  exact findings_checkCall hcallee

end

/-- A call of a local is checked against the first function that the variable was given, whatever
has been walked since. -/
theorem arity_of_first_function (env : WalkEnv) (available : List FileId) (stats : List Stat)
    (args : List Exp) (range nameRange : TextRange) (hv : v.index < w.store.vars.size)
    (hf : (w.store.variableAt v).function = some f) :
    let w₁ := (visitStats env (enterFrom env available) stats w).2
    let w₂ := (visitExps env (enterFrom env available) args (readName env name nameRange w₁).2).2
    w₁.store.lookupLocal? w₁.frame.scope name = some v →
    ∃ more, (visitExp env (enterFrom env available)
      (.call range (.name nameRange name) args) w₁).2 =
        withFindings (arityFindings w₂.frame.path name args range (w₂.store.functionAt f) ++
          more) w₂ ∧
      ∀ d ∈ more, d.kind = .argumentType := by
  intro w₁ w₂ hbound
  have hsettles : w.store.Settles w₁.store :=
    settles_of_agrees (fun start => (paired_enterFrom start).visitStats stats) w
  exact findings_visitCall hbound ((hsettles.variableAt v hv).function f hf)

end WalkM

/-! ## Single files -/

def fileAlone (text : String) : Project :=
  ((Project.ofConfig {}).addFile "a.lua" text).1

def parsedAlone (text : String) : Option (SourceFile × Chunk) := do
  let source ← (fileAlone text).files.get? ⟨0⟩
  let chunk ← source.source.tree.toOption
  return (source, chunk)

/-- The state behind the first `n` statements of a text that is walked alone. -/
def walkedUpTo (text : String) (n : Nat) : Walk :=
  let env := (fileAlone text).env .fileLocal {}
  match parsedAlone text with
  | none => default
  | some (source, chunk) =>
    (WalkM.visitStats env (WalkM.enterFrom env []) (chunk.block.stats.take n)
      (WalkM.entering env ⟨0⟩ source chunk (.start .fileLocal))).2

/-- A table is assigned to a variable whose kind is unknown, and the member `a` of the variable is
gone. -/
theorem members_replaced :
    let after := walkedUpTo "local t = f()\nt.a = 1\nt = {b = 1}\n"
    ((after 2).store.variableAt ⟨0⟩).members.keys = ["a"] ∧
    ((after 3).store.variableAt ⟨0⟩).members.keys = ["b"] := by
  decide +kernel

def reassignedText : String :=
  "local f = function() end\nf = function(a) end\nf(1)\n"

theorem arity_of_first_function_reassigned :
    let env := (fileAlone reassignedText).env .fileLocal {}
    let stats :=
      ((parsedAlone reassignedText).map fun parsed => (parsed.2.block.stats.drop 1).take 1).getD []
    let w₁ := (WalkM.visitStats env (WalkM.enterFrom env []) stats (walkedUpTo reassignedText 1)).2
    let arg := Exp.number default default
    let w₂ :=
      (WalkM.visitExps env (WalkM.enterFrom env []) [arg] (WalkM.readName env "f" default w₁).2).2
    w₁.store.lookupLocal? w₁.frame.scope "f" = some ⟨0⟩ ∧ ∃ more,
      (WalkM.visitExp env (WalkM.enterFrom env []) (.call default (.name default "f") [arg]) w₁).2 =
        WalkM.withFindings
        (WalkM.arityFindings w₂.frame.path "f" [arg] default (w₂.store.functionAt ⟨1⟩) ++ more) w₂ ∧
      ∀ d ∈ more, d.kind = .argumentType := by
  intro env stats w₁ arg w₂
  refine ⟨?_, WalkM.arity_of_first_function (w := walkedUpTo reassignedText 1) (v := ⟨0⟩) env
    [] stats [arg] default
    default (by decide +kernel) (by decide +kernel) ?_⟩
  all_goals decide +kernel

/-- The last function that `f` was given takes the argument, and yet the call is reported. -/
theorem arity_stale : ∃ a ∈ (fileAlone reassignedText).analyse? ⟨0⟩,
    a.result.diagnostics.map (·.kind) = [.callArity] ∧ (a.store.functionAt ⟨2⟩).params = ["a"] := by
  decide +kernel

end LuaAnalysis
