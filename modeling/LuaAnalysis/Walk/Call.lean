import LuaAnalysis.Walk.Assign

/-!
# Members, operands and calls
-/

namespace LuaAnalysis.WalkM

/-- Reports an access to a name that is proven nil. -/
def checkIndexed (obj : Exp) : WalkM Unit :=
  match obj.unparen.asName? with
  | some name => checkMaybeNil name obj.range
  | none => pure ()

/-- Reports a member that a module is known not to have. -/
def checkMember (module : VariableId) (key : String) (range : TextRange) : WalkM Unit := do
  if ← ask (·.isResolvedModule module) then
    let name ← ask fun s => (s.variableAt module).name
    report .undefinedMember s!"module '{name}' has no member '{key}'" range

/-- What is known about a member of a value. A module that is known whole has no other members. -/
def memberInfo (owner : ValueInfo) (key : String) (range : TextRange) : WalkM ValueInfo := do
  match owner.var with
  | none => return .unknown
  | some owner =>
    match ← ask (·.memberOf? owner key) with
    | some member => ask (·.infoOf member)
    | none =>
      whenChecked .undefinedMember (checkMember owner key range)
      return .unknown

/-! ## Operands -/

def operandType? (op : BinOp) : Option String :=
  if op.isArithmetic then some "number"
  else if op = .concat then some "string|number"
  else none

/-- The type of an operand, where a wrong one is certain. Values of a class may have operators of their own, and a kind
other than nil, boolean or function may be turned into a number or a string. -/
def certainType? (s : Store) (info : ValueInfo) : Option String :=
  match info.var.bind fun v => (s.variableAt v).declaredType with
  | some type =>
    if isOptionalType type then none
    else
      match ValueKind.ofTypeName type with
      | .nil | .boolean | .string | .function => some type
      | _ => none
  | none =>
    match info.kind with
    | .nil | .boolean | .function => info.kind.typeName?
    | _ => none

def checkOperand (op : BinOp) (expected : String) (operand : Exp) (info : ValueInfo) : WalkM Unit := do
  match ← ask (certainType? · info) with
  | some actual =>
    if !Types.compatible expected actual then
      report .binaryOperandType s!"operand of '{op.text}' has type '{actual}' but '{expected}' is expected"
        operand.range
  | none => return

def checkOperands (op : BinOp) (lhs rhs : Exp) (left right : ValueInfo) : WalkM Unit := do
  match operandType? op with
  | some expected =>
    whenChecked .binaryOperandType do
      checkOperand op expected lhs left
      checkOperand op expected rhs right
  | none => return

def binaryInfo (op : BinOp) (left right : ValueInfo) : ValueInfo :=
  match op with
  | .and => right
  | .or =>
    if left.kind.isReplaceable then right
    else if left.kind = right.kind then left
    else .unknown
  | .concat => .ofKind .string
  | op => if op.isComparison then .ofKind .boolean else .ofKind .number

def unaryInfo : UnOp → ValueInfo
  | .not => .ofKind .boolean
  | .neg | .len | .bnot => .ofKind .number

/-! ## Calls -/

def calleeName (func : Exp) : String :=
  match func.memberChain? with
  | some chain => ".".intercalate (chain.map (·.text))
  | none => "function"

/-- The number of values that arguments surely give. -/
def surelyGiven (args : List Exp) : Nat :=
  if (args.getLast?.map (·.isMultiValue)).getD false then args.length - 1 else args.length

/-- Reports a call with more arguments than the function takes. A method call passes its object first. -/
def checkArity (f : Function) (name : String) (args : List Exp) (offset : Nat) (range : TextRange) : WalkM Unit :=
  if f.isVararg then pure ()
  else whenChecked .callArity do
    let given := surelyGiven args
    if f.params.length < given + offset then
      report .callArity s!"'{name}' takes {f.params.length - offset} argument(s) but {given} were given" range

def checkArgument (f : Function) (name : String) (param : String) (i : Nat) (arg : Exp) (info : ValueInfo) :
    WalkM Unit := do
  match f.types.params.get? param, ← ask (·.typeOf? info) with
  | some expected, some actual =>
    if !Types.compatible expected actual then
      report .argumentType s!"argument #{i} of '{name}' expects '{expected}' but got '{actual}'" arg.range
  | _, _ => return

/-- Reports arguments that do not fit, from the one with number `i` on. -/
def checkArguments (f : Function) (name : String) : Nat → List String → List (Exp × ValueInfo) → WalkM Unit
  | i, param :: params, (arg, info) :: args => do
    checkArgument f name param i arg info
    checkArguments f name (i + 1) params args
  | _, _, _ => return

def checkArgumentTypes (f : Function) (name : String) (args : List (Exp × ValueInfo)) (offset : Nat) : WalkM Unit :=
  if f.types.params.isEmpty then pure ()
  else whenChecked .argumentType (checkArguments f name 1 (f.params.drop offset) args)

def checkCall (callee : ValueInfo) (name : String) (args : List Exp) (infos : List ValueInfo) (isMethod : Bool)
    (range : TextRange) : WalkM Unit := do
  match ← ask (·.calleeOf? callee) with
  | none => return
  | some id =>
    let f ← ask (·.functionAt id)
    let offset := if isMethod then 1 else 0
    checkArity f name args offset range
    checkArgumentTypes f name (args.zip infos) offset

end LuaAnalysis.WalkM
