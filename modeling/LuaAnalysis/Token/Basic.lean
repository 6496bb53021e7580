import LuaAnalysis.Number.Numeral
import LuaAnalysis.Text.Position

/-!
# Tokens of Lua

Keywords, symbols, names, strings and numerals, each with its range, and the comments between them.
-/

namespace LuaAnalysis

inductive Keyword where
  | kAnd | kBreak | kDo | kElse | kElseif | kEnd | kFalse | kFor | kFunction | kGoto | kIf
  | kIn | kLocal | kNil | kNot | kOr | kRepeat | kReturn | kThen | kTrue | kUntil | kWhile
deriving DecidableEq, Repr, Inhabited

namespace Keyword

def text : Keyword → String
  | kAnd => "and" | kBreak => "break" | kDo => "do" | kElse => "else" | kElseif => "elseif" | kEnd => "end"
  | kFalse => "false" | kFor => "for" | kFunction => "function" | kGoto => "goto" | kIf => "if" | kIn => "in"
  | kLocal => "local" | kNil => "nil" | kNot => "not" | kOr => "or" | kRepeat => "repeat" | kReturn => "return"
  | kThen => "then" | kTrue => "true" | kUntil => "until" | kWhile => "while"

def all : List Keyword :=
  [kAnd, kBreak, kDo, kElse, kElseif, kEnd, kFalse, kFor, kFunction, kGoto, kIf,
    kIn, kLocal, kNil, kNot, kOr, kRepeat, kReturn, kThen, kTrue, kUntil, kWhile]

def ofText? (word : String) : Option Keyword :=
  all.find? (·.text == word)

end Keyword

inductive Symbol where
  | plus | minus | star | slash | doubleSlash | percent | caret | hash | ampersand | tilde | pipe | shl | shr
  | eqEq | notEq | le | ge | lt | gt | assign | lparen | rparen | lbrace | rbrace | lbracket | rbracket
  | doubleColon | semi | colon | comma | dot | concat | ellipsis
deriving DecidableEq, Repr, Inhabited

namespace Symbol

def text : Symbol → String
  | plus => "+" | minus => "-" | star => "*" | slash => "/" | doubleSlash => "//" | percent => "%" | caret => "^"
  | hash => "#" | ampersand => "&" | tilde => "~" | pipe => "|" | shl => "<<" | shr => ">>" | eqEq => "=="
  | notEq => "~=" | le => "<=" | ge => ">=" | lt => "<" | gt => ">" | assign => "=" | lparen => "(" | rparen => ")"
  | lbrace => "\x7b" | rbrace => "\x7d" | lbracket => "[" | rbracket => "]" | doubleColon => "::" | semi => ";"
  | colon => ":" | comma => "," | dot => "." | concat => ".." | ellipsis => "..."

/-- Every symbol, longer ones first, so that the first one that begins a text is the longest one. -/
def all : List Symbol :=
  [ellipsis, doubleSlash, shl, shr, eqEq, notEq, le, ge, doubleColon, concat,
    plus, minus, star, slash, percent, caret, hash, ampersand, tilde, pipe, lt, gt, assign, lparen, rparen,
    lbrace, rbrace, lbracket, rbracket, semi, colon, comma, dot]

def longest? (cs : List Char) : Option Symbol :=
  all.find? fun s => s.text.toList.isPrefixOf cs

end Symbol

inductive TokenKind where
  | name (text : String)
  | string (text : String)
  | number (value : Numeral)
  | keyword (word : Keyword)
  | symbol (sign : Symbol)
deriving DecidableEq, Repr, Inhabited

/-- How messages name a token. -/
def TokenKind.describe : TokenKind → String
  | name text => s!"'{text}'"
  | string _ => "string"
  | number _ => "number"
  | keyword word => s!"'{word.text}'"
  | symbol sign => s!"'{sign.text}'"

structure Token where
  kind : TokenKind
  range : TextRange
deriving DecidableEq, Repr, Inhabited

/-- A comment without its dashes and brackets. -/
structure Comment where
  text : String
  range : TextRange
  /-- Code stands before it on its first line. -/
  trailing : Bool
deriving DecidableEq, Repr, Inhabited

end LuaAnalysis
