/-!
# Kinds of diagnostics

Every kind has a name, a code and a severity. The order of the kinds is the order of `Kind.all`.
-/

namespace LuaAnalysis

inductive Severity where
  | error | warning | info | hint
deriving DecidableEq, Repr, Inhabited

def Severity.text : Severity → String
  | error => "error"
  | warning => "warning"
  | info => "info"
  | hint => "hint"

inductive Kind where
  | undefinedGlobal | undefinedMember | loadOrder | importNotFound | syntaxError
  | duplicateKey | duplicateEnumValue | callArity | assignCount | duplicateParam
  | argumentType | returnType | assignmentType | binaryOperandType
  | duplicateIf | selfAssign | orAlwaysTrue | andAlwaysFalse | duplicateExp | floatEquality
  | unusedLocal | unusedLocalFunction | constAssign | unknownGotoLabel | maybeNil
deriving DecidableEq, Repr, Inhabited

namespace Kind

def all : List Kind :=
  [undefinedGlobal, undefinedMember, loadOrder, importNotFound, syntaxError,
    duplicateKey, duplicateEnumValue, callArity, assignCount, duplicateParam,
    argumentType, returnType, assignmentType, binaryOperandType,
    duplicateIf, selfAssign, orAlwaysTrue, andAlwaysFalse, duplicateExp, floatEquality,
    unusedLocal, unusedLocalFunction, constAssign, unknownGotoLabel, maybeNil]

def code : Kind → String
  | undefinedGlobal => "R001" | undefinedMember => "R002" | loadOrder => "R003" | importNotFound => "R004"
  | syntaxError => "R005" | duplicateKey => "S001" | duplicateEnumValue => "S002" | callArity => "S003"
  | assignCount => "S004" | duplicateParam => "S005" | argumentType => "T001" | returnType => "T002"
  | assignmentType => "T003" | binaryOperandType => "T004" | duplicateIf => "D001" | selfAssign => "D002"
  | orAlwaysTrue => "D003" | andAlwaysFalse => "D004" | duplicateExp => "D005" | floatEquality => "D006"
  | unusedLocal => "L001" | unusedLocalFunction => "L002" | constAssign => "L003" | unknownGotoLabel => "L004"
  | maybeNil => "L005"

def name : Kind → String
  | undefinedGlobal => "undefined-global" | undefinedMember => "undefined-member" | loadOrder => "load-order"
  | importNotFound => "import-not-found" | syntaxError => "syntax" | duplicateKey => "duplicate-key"
  | duplicateEnumValue => "duplicate-enum-value" | callArity => "call-arity" | assignCount => "assign-count"
  | duplicateParam => "duplicate-param" | argumentType => "argument-type" | returnType => "return-type"
  | assignmentType => "assignment-type" | binaryOperandType => "binary-operand-type"
  | duplicateIf => "duplicate-if" | selfAssign => "self-assign" | orAlwaysTrue => "or-always-true"
  | andAlwaysFalse => "and-always-false" | duplicateExp => "duplicate-exp" | floatEquality => "float-equality"
  | unusedLocal => "unused-local" | unusedLocalFunction => "unused-local-function"
  | constAssign => "const-assign" | unknownGotoLabel => "unknown-goto-label" | maybeNil => "maybe-nil"

/-- The kind with a name, or with a code in lower or upper case. -/
def ofText? (text : String) : Option Kind :=
  all.find? fun k => k.name == text || k.code == text.map Char.toUpper

def severity : Kind → Severity
  | syntaxError | importNotFound => .error
  | unusedLocal | unusedLocalFunction => .hint
  | floatEquality | duplicateExp => .info
  | _ => .warning

def rank (k : Kind) : Nat :=
  k.ctorIdx

instance : Ord Kind := ⟨fun a b => compare a.rank b.rank⟩

end Kind

end LuaAnalysis
