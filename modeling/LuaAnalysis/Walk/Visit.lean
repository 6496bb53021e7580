import LuaAnalysis.Walk.FunctionBody

/-!
# Walking a tree

Expressions give what is known about their values; statements declare, assign and return. Every visitor leaves the scope,
the function, the guards and the target of a self reference as it found them.
-/

namespace LuaAnalysis.WalkM

variable (env : WalkEnv) (enter : Enter)

mutual

def visitExp : Exp → WalkM ValueInfo
  | .nil _ => return .ofKind .nil
  | .bool _ _ => return .ofKind .boolean
  | .vararg _ => return .unknown
  | .number _ _ => return .ofKind .number
  | .string _ _ => return .ofKind .string
  | .name range text => readName env text range
  | .function _ body => do
    let types := (← frame).annotations.functionTypes? body.range.start.line
    let f ← createFunction body none false types
    visitFunctionBody f body
    return .ofFunction f
  | .table range fields => do
    whenChecked .duplicateKey (reportAll (Check.duplicateKeys fields))
    whenChecked .duplicateEnumValue (checkEnum range.start.line fields)
    let members ← visitFields fields {}
    let file := (← frame).file
    let v ← add (·.addVariable
      { name := "", file, range, kind := .table, flags := { declaredEmpty := fields.isEmpty }, members })
    return { kind := .table, var := some v }
  | .index _ obj key _ => do
    let owner ← visitExp obj
    checkIndexed obj
    match key.asString? with
    | some text => memberInfo owner text key.range
    | none =>
      discard (visitExp key)
      return .unknown
  | .call range func args => do
    match loadOf? env (← get) func args with
    | some (name, load, module) =>
      readLoadFunction env name func.range
      discard (visitExps args)
      visitLoad env enter load module range
    | none =>
      let callee ← visitExp func
      let infos ← visitExps args
      checkCall callee (calleeName func) args infos false range
      ask (·.callResult callee)
  | .methodCall range obj method args => do
    let owner ← visitExp obj
    checkIndexed obj
    let callee ← memberInfo owner method.text method.range
    let infos ← visitExps args
    checkCall callee method.text args infos true range
    ask (·.callResult callee)
  | .binary range op lhs rhs => do
    reportAll (Check.redundantBinary op lhs rhs range)
    let left ← visitExp lhs
    let right ← match op with
      | .and => withGuard (lhs.truthyWhen true) (visitExp rhs)
      | .or => withGuard (lhs.truthyWhen false) (visitExp rhs)
      | _ => visitExp rhs
    checkOperands op lhs rhs left right
    return binaryInfo op left right
  | .unary _ op operand => do
    discard (visitExp operand)
    return unaryInfo op
  | .paren _ inner => visitExp inner

def visitExps : List Exp → WalkM (List ValueInfo)
  | [] => return []
  | e :: es => do
    let info ← visitExp e
    let infos ← visitExps es
    return info :: infos

/-- Walks the fields of a table; named fields are its members. -/
def visitFields : List Field → OrderedMap String VariableId → WalkM (OrderedMap String VariableId)
  | [], members => return members
  | .named key value :: rest, members => do
    let info ← visitExp value
    let file := (← frame).file
    let v ← ask (·.variableFrom key.text file key.range info)
    let id ← add (·.addVariable v)
    visitFields rest (members.insert key.text id)
  | .keyed key value :: rest, members => do
    discard (visitExp key)
    let info ← visitExp value
    match key.asString? with
    | some name =>
      let file := (← frame).file
      let v ← ask (·.variableFrom name file key.range info)
      let id ← add (·.addVariable v)
      visitFields rest (members.insert name id)
    | none => visitFields rest members
  | .positional value :: rest, members => do
    discard (visitExp value)
    visitFields rest members

def visitFunctionBody (id : FunctionId) : FunctionBody → WalkM Unit
  | ⟨_, params, _, block⟩ => do
    whenChecked .duplicateParam (reportAll (Check.duplicateParams params))
    inFunction id do
      declareParams id params
      visitBlock block
      finishFunction id

def visitBlock : Block → WalkM Unit
  | ⟨_, stats, ret⟩ => do
    visitStats stats
    visitReturn? ret

def visitReturn? : Option ReturnStat → WalkM Unit
  | none => return
  | some ret => visitReturn ret

def visitReturn : ReturnStat → WalkM Unit
  | ⟨range, values⟩ => do
    let infos ← visitExps values
    addReturn ⟨range, values⟩ infos

def visitStats : List Stat → WalkM Unit
  | [] => return
  | s :: ss => do
    visitStat s
    visitStats ss

def visitStat : Stat → WalkM Unit
  | .empty _ | .breakLoop _ => return
  | .locals range names values => do
    let name? := match names with
      | [n] => some n.name.text
      | _ => none
    let infos ← withSelfTarget (selfTarget? name? values) (visitExps values)
    whenChecked .assignCount (reportAll (Check.valueCountMismatch names.length values range).toList)
    let annotations := (← frame).annotations
    let line := range.start.line
    declareLocals values infos 0 (annotations.declaredType? line) (annotations.isConstant line) names
  | .localFunction range name body => do
    let f ← frame
    let id ← createFunction body (some name.text) false (f.annotations.functionTypes? range.start.line)
    -- Declared before the body, so that the function can call itself.
    declare { name := name.text, file := f.file, range := name.range, kind := .function, function := some id }
    visitFunctionBody id body
  | .function range name body => do
    let types := (← frame).annotations.functionTypes? range.start.line
    let id ← createFunction body (some name.display) name.method.isSome types
    assignFunction env name id range
    visitFunctionBody id body
  | .assign range targets values => do
    let name? := match targets with
      | [t] => t.asName?
      | _ => none
    let infos ← withSelfTarget (selfTarget? name? values) (visitExps values)
    whenChecked .assignCount (reportAll (Check.valueCountMismatch targets.length values range).toList)
    whenChecked .selfAssign (reportAll (Check.selfAssignments targets values))
    visitTargets (fun i => (valueAt? infos values i).getD (.ofKind .nil)) range 0 targets
  | .call _ e => discard (visitExp e)
  | .doBlock _ block => withScope .block block.range (visitBlock block)
  | .whileLoop _ cond block => do
    discard (visitExp cond)
    withScope .loop block.range (visitBlock block)
  | .repeatLoop _ block cond =>
    -- The condition sees the locals of the body.
    withScope .loop (block.range.cover cond.range) do
      visitBlock block
      discard (visitExp cond)
  | .ifChain _ clauses orElse => do
    whenChecked .duplicateIf (reportAll (Check.duplicateConditions clauses))
    withChain fun chain => do
      visitClauses chain clauses
      visitElse chain orElse
  | .numericFor _ var first limit step block => do
    discard (visitExp first)
    discard (visitExp limit)
    visitExp? step
    withScope .loop block.range do
      declareLoopVariable var .number
      visitBlock block
  | .genericFor _ names values block => do
    discard (visitExps values)
    withScope .loop block.range do
      names.forM fun n => declareLoopVariable n .unknown
      visitBlock block
  | .goto _ label => addGoto label
  | .label _ name => addLabel name

def visitExp? : Option Exp → WalkM Unit
  | none => return
  | some e => discard (visitExp e)

def visitTargets (valueFor : Nat → ValueInfo) (statement : TextRange) : Nat → List Exp → WalkM Unit
  | _, [] => return
  | i, .name range text :: ts => do
    assignName env text range (valueFor i) statement
    visitTargets valueFor statement (i + 1) ts
  | i, .index range obj key dotted :: ts => do
    match splitChain? (.index range obj key dotted) with
    | some (base, path, last) => assignMember env base path last (valueFor i)
    | none =>
      discard (visitExp obj)
      checkIndexed obj
      discard (visitExp key)
    visitTargets valueFor statement (i + 1) ts
  | i, t :: ts => do
    discard (visitExp t)
    visitTargets valueFor statement (i + 1) ts

/-- Walks the branches of a chain; each condition that fails tells the later ones something. -/
def visitClauses (chain : ScopeId) : List Clause → WalkM Unit
  | [] => return
  | ⟨cond, block⟩ :: rest => do
    discard (visitExp cond)
    withScope .branch block.range do
      applyNarrowing chain (cond.falsyWhen true)
      visitBlock block
    narrowChain chain (cond.falsyWhen false)
    visitClauses chain rest

def visitElse (chain : ScopeId) : Option Block → WalkM Unit
  | none => return
  | some block =>
    withScope .branch block.range do
      applyNarrowing chain {}
      visitBlock block

end

end LuaAnalysis.WalkM
