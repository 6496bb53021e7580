import LuaAnalysis.Diagnostic.Finding
import LuaAnalysis.Tree.Basic

/-!
# Redundant and suspicious expressions

Checks that look at one expression or one assignment.
-/

namespace LuaAnalysis.Check

def isTrue (e : Exp) : Bool :=
  match e.unparen with
  | .bool _ b => b
  | _ => false

def isFalse (e : Exp) : Bool :=
  match e.unparen with
  | .bool _ b => !b
  | _ => false

/-- A numeral written as a float, in parentheses and under unary operators or not. -/
def isFloatLiteral : Exp → Bool
  | .number _ n => n.isFloat
  | .unary _ _ operand => isFloatLiteral operand
  | .paren _ inner => isFloatLiteral inner
  | _ => false

def isNumberOrString (e : Exp) : Bool :=
  match e.unparen with
  | .number .. | .string .. => true
  | _ => false

/-- Operators for which equal operands are worth a remark: `x ~= x` tests for a number that differs from itself, and
doubling, squaring and repeating are in use. -/
def marksEqualOperands : BinOp → Bool
  | .ne | .add | .mul | .concat | .pow => false
  | _ => true

def equalOperands (op : BinOp) (lhs rhs : Exp) : Bool :=
  marksEqualOperands op && !lhs.hasCall && lhs.sameAs rhs && !isNumberOrString lhs

def redundantBinary (op : BinOp) (lhs rhs : Exp) (range : TextRange) : List Finding :=
  let same : List Finding :=
    if equalOperands op lhs rhs then
      [{ kind := .duplicateExp, message := s!"identical expressions on both sides of '{op.text}'", range }]
    else []
  let constant : List Finding :=
    match op with
    | .or =>
      if isTrue rhs || isTrue lhs then
        [{ kind := .orAlwaysTrue, message := "'or true' makes the expression always true", range }]
      else []
    | .and =>
      if isFalse rhs || isFalse lhs then
        [{ kind := .andAlwaysFalse, message := "'and false' makes the expression always false", range }]
      else []
    | .eq | .ne =>
      if isFloatLiteral lhs || isFloatLiteral rhs then
        [{ kind := .floatEquality
           message := s!"comparing floating point values with '{op.text}' is unreliable"
           range }]
      else []
    | _ => []
  same ++ constant

def selfAssignments (targets values : List Exp) : List Finding :=
  ((targets.zip values).filter fun (t, v) => !v.hasCall && t.sameAs v.unparen).map fun (t, _) =>
    { kind := .selfAssign, message := "variable is assigned to itself", range := t.range }

/-- More values than targets, or fewer although the last value is a single one. -/
def valueCountMismatch (targets : Nat) (values : List Exp) (range : TextRange) : Option Finding :=
  let n := values.length
  let expands := (values.getLast?.map (·.isMultiValue)).getD false
  if n == 0 || n == targets || (n < targets && expands) then none
  else some { kind := .assignCount, message := s!"{targets} variable(s) but {n} value(s)", range }

/-- Whether assigning `value` to `name` gives it a default: `x = x or v` and `x = (x == nil) and v`, on one line. -/
def isSelfReference (name : String) (value : Exp) : Bool :=
  match value.unparen with
  | .binary _ op lhs rhs =>
    lhs.range.start.line == rhs.range.stop.line &&
      match op with
      | .or => lhs.unparen.asName? == some name
      | .and =>
        match lhs.unparen with
        | .binary _ .eq compared null => compared.unparen.asName? == some name && null.isNil
        | _ => false
      | _ => false
  | _ => false

end LuaAnalysis.Check
