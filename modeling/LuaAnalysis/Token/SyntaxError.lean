import LuaAnalysis.Token.Basic

/-!
# Why a source text is refused

A text is refused for one cause at one position. The wording of every cause stands in `SyntaxFault.message`.
-/

namespace LuaAnalysis

inductive SyntaxFault where
  /-- The text ends inside a long string or comment. -/
  | unfinishedLongBracket
  | unfinishedString
  /-- A letter stands right behind a numeral. -/
  | malformedNumber
  | malformedNumeral (lexeme : String)
  /-- No token starts with this byte. -/
  | unexpectedByte (byte : UInt8)
  | hexDigitExpected
  | missingOpenBrace
  | missingCloseBrace
  | escapeTooLarge
  | invalidEscape
  | tooManyLevels
  /-- The next token, if there is one, is not `what`. -/
  | expected (what : String) (near : Option TokenKind)
  /-- As `expected`, where `what` would close what was opened on an earlier line. -/
  | unclosed (what opener : String) (line : Nat) (near : Option TokenKind)
  | unexpected (near : Option TokenKind)
  | unknownAttribute (name : String)
  /-- A target of an assignment is neither a name nor an indexed value. -/
  | notAssignable
  /-- An expression that is not a call stands alone. -/
  | notAStatement
deriving DecidableEq, Repr, Inhabited

/-- How messages name the next token or the end of the text. -/
def describeNext : Option TokenKind → String
  | some kind => kind.describe
  | none => "<eof>"

def SyntaxFault.message : SyntaxFault → String
  | unfinishedLongBracket => "unfinished long string or comment"
  | unfinishedString => "unfinished string"
  | malformedNumber => "malformed number"
  | malformedNumeral lexeme => s!"malformed number near '{lexeme}'"
  | unexpectedByte byte => s!"unexpected symbol near '{Char.ofNat byte.toNat}'"
  | hexDigitExpected => "hexadecimal digit expected"
  | missingOpenBrace => "missing '\x7b' in \\u\x7bxxxx\x7d"
  | missingCloseBrace => "missing '\x7d' in \\u\x7bxxxx\x7d"
  | escapeTooLarge => "decimal escape too large"
  | invalidEscape => "invalid escape sequence"
  | tooManyLevels => "chunk has too many syntax levels"
  | expected what near => s!"{what} expected near {describeNext near}"
  | unclosed what opener line near =>
    s!"{what} expected (to close '{opener}' at line {line + 1}) near {describeNext near}"
  | unexpected near => s!"unexpected symbol near {describeNext near}"
  | unknownAttribute name => s!"unknown attribute '{name}'"
  | notAssignable => "syntax error near '='"
  | notAStatement => "syntax error: expression is not a statement"

structure SyntaxError where
  position : Position
  fault : SyntaxFault
deriving DecidableEq, Repr, Inhabited

namespace SyntaxError

def message (e : SyntaxError) : String :=
  e.fault.message

/-- The message with the position counted from one. -/
def display (e : SyntaxError) : String :=
  s!"{e.message} at {e.position.line + 1}:{e.position.column + 1}"

end SyntaxError

end LuaAnalysis
