import LuaAnalysis.Text.Glyph
import LuaAnalysis.Text.Utf8
import LuaAnalysis.Token.SyntaxError

/-!
# From text to tokens

The lexer reads glyphs. Each scanner says how many glyphs it takes, and a fault says after how many glyphs it stands, so
that what a token covers is always a stretch of the text. `tokenize` cuts a whole text into tokens, comments and blanks.
-/

namespace LuaAnalysis.Lexer

/-- A fault `offset` glyphs after the place where scanning began. -/
structure Fault where
  offset : Nat
  fault : SyntaxFault
deriving DecidableEq, Repr

/-- The same fault seen from `n` glyphs earlier. -/
def Fault.shift (n : Nat) (f : Fault) : Fault :=
  { f with offset := n + f.offset }

/-- A scanned value and the number of glyphs it takes. -/
abbrev Scanned (α : Type) := Except Fault (α × Nat)

/-! ## Character classes -/

def isNameStart (c : Char) : Bool :=
  c.isAlpha || c == '_'

def isNameChar (c : Char) : Bool :=
  c.isAlphanum || c == '_'

def isBlank (c : Char) : Bool :=
  c == ' ' || c == '\t' || c == '\x0b' || c == '\x0c'

/-- What the escape `\z` skips. -/
def isSkippable (c : Char) : Bool :=
  c == ' ' || c == '\t' || c == '\n' || c == '\x0c'

/-! ## Long brackets -/

def longLevel? : List Glyph → Option Nat
  | [] => none
  | g :: gs =>
    if g.char == '[' then
      let level := (Glyph.takeWhile (· == '=') gs).length
      if Glyph.startsWith ['['] (gs.drop level) then some level else none
    else none

def longClose (level : Nat) : List Char :=
  ']' :: List.replicate level '=' ++ [']']

/-- The text up to the closing bracket, and the glyphs up to its end; `none` when it is never closed. -/
def longBody? (level : Nat) : List Glyph → Option (List Char × Nat)
  | [] => none
  | g :: gs =>
    if Glyph.startsWith (longClose level) (g :: gs) then some ([], level + 2)
    else (longBody? level gs).map fun (text, n) => (g.char :: text, n + 1)

/-- The contents of a long bracket of this level that begins the glyphs. A line end right after the opening is left
out. -/
def longBracket (level : Nat) (gs : List Glyph) : Scanned String :=
  let body := gs.drop (level + 2)
  let skipped := if Glyph.startsWith ['\n'] body then 1 else 0
  match longBody? level (body.drop skipped) with
  | some (text, n) => .ok (String.ofList text, level + 2 + skipped + n)
  | none => .error ⟨gs.length, .unfinishedLongBracket⟩

/-! ## Quoted strings -/

def takeUpTo (max : Nat) (p : Char → Bool) (gs : List Glyph) : List Char :=
  Glyph.takeWhile p (gs.take max)

def hexValue (digits : List Char) : Nat :=
  digits.foldl (fun n c => n * 16 + (Numeral.digitValue? c).getD 0) 0

def decimalValue (digits : List Char) : Nat :=
  digits.foldl (fun n c => n * 10 + (c.toNat - '0'.toNat)) 0

def simpleEscape? : Char → Option UInt8
  | 'n' => some 10
  | 't' => some 9
  | 'r' => some 13
  | 'a' => some 7
  | 'b' => some 8
  | 'f' => some 12
  | 'v' => some 11
  | '\\' => some 92
  | '"' => some 34
  | '\'' => some 39
  | _ => none

/-- The character with a code point, or the replacement character where there is none. -/
def charOfCode (code : Nat) : Char :=
  if code.isValidChar then Char.ofNat code else Utf8.replacement

def hexEscape (gs : List Glyph) : Scanned (List UInt8) :=
  let digits := takeUpTo 2 Numeral.isHexDigit gs
  if digits.isEmpty then .error ⟨1, .hexDigitExpected⟩
  else .ok ([(hexValue digits).toUInt8], 1 + digits.length)

def codeEscape (gs : List Glyph) : Scanned (List UInt8) :=
  if !Glyph.startsWith ['\x7b'] gs then .error ⟨1, .missingOpenBrace⟩
  else
    let digits := takeUpTo 8 Numeral.isHexDigit (gs.drop 1)
    if !Glyph.startsWith ['\x7d'] (gs.drop (1 + digits.length)) then
      .error ⟨2 + digits.length, .missingCloseBrace⟩
    else if digits.isEmpty then .error ⟨3, .hexDigitExpected⟩
    else .ok (String.utf8EncodeChar (charOfCode (hexValue digits)), 3 + digits.length)

def decimalEscape (gs : List Glyph) : Scanned (List UInt8) :=
  let digits := takeUpTo 3 Char.isDigit gs
  if decimalValue digits > 255 then .error ⟨digits.length, .escapeTooLarge⟩
  else .ok ([(decimalValue digits).toUInt8], digits.length)

/-- The bytes of the escape whose text after the backslash is given. -/
def escape : List Glyph → Scanned (List UInt8)
  | [] => .error ⟨0, .unfinishedString⟩
  | g :: gs =>
    match simpleEscape? g.char with
    | some byte => .ok ([byte], 1)
    | none =>
      if g.char == '\n' then .ok ([10], 1)
      else if g.char == 'z' then .ok ([], 1 + (Glyph.takeWhile isSkippable gs).length)
      else if g.char == 'x' then hexEscape gs
      else if g.char == 'u' then codeEscape gs
      else if g.char.isDigit then decimalEscape (g :: gs)
      else .error ⟨0, .invalidEscape⟩

/-- The bytes up to the closing quote, leaving out the first `skip` glyphs, and the glyphs up to its end. -/
def quotedBody (quote : Char) (skip : Nat) : List Glyph → Scanned (List UInt8)
  | [] => .error ⟨0, .unfinishedString⟩
  | g :: gs =>
    match skip with
    | skip + 1 => after [] (quotedBody quote skip gs)
    | 0 =>
      if g.char == '\n' then .error ⟨0, .unfinishedString⟩
      else if g.char == '\\' then
        match escape gs with
        | .error f => .error (f.shift 1)
        | .ok (bytes, n) => after bytes (quotedBody quote n gs)
      else if g.char == quote then .ok ([], 1)
      else after (String.utf8EncodeChar g.char) (quotedBody quote 0 gs)
where
  /-- What a scan that starts one glyph later gives, with `bytes` in front. -/
  after (bytes : List UInt8) : Scanned (List UInt8) → Scanned (List UInt8)
    | .ok (more, n) => .ok (bytes ++ more, n + 1)
    | .error f => .error (f.shift 1)

def quoted (quote : Char) (gs : List Glyph) : Scanned String :=
  match quotedBody quote 0 (gs.drop 1) with
  | .ok (bytes, n) => .ok (String.ofList (Utf8.decodeLossy bytes), n + 1)
  | .error f => .error (f.shift 1)

/-! ## Numerals -/

def isExponentMark (hex : Bool) (c : Char) : Bool :=
  if hex then c == 'p' || c == 'P' else c == 'e' || c == 'E'

/-- The longest run of digits, points and exponents; a sign belongs to it right after an exponent mark. -/
def numeralRun (hex afterMark : Bool) : List Glyph → List Char
  | [] => []
  | g :: gs =>
    if isExponentMark hex g.char || Numeral.isHexDigit g.char || g.char == '.'
        || (afterMark && (g.char == '+' || g.char == '-')) then
      g.char :: numeralRun hex (isExponentMark hex g.char) gs
    else []

def numeralLexeme (gs : List Glyph) : List Char :=
  if Glyph.startsWith ['0', 'x'] gs || Glyph.startsWith ['0', 'X'] gs then
    Glyph.chars (gs.take 2) ++ numeralRun true false (gs.drop 2)
  else numeralRun false false gs

def number (gs : List Glyph) : Scanned Numeral :=
  let lexeme := numeralLexeme gs
  if !(Glyph.takeWhile isNameStart (gs.drop lexeme.length)).isEmpty then
    .error ⟨lexeme.length, .malformedNumber⟩
  else
    match Numeral.ofLexeme? lexeme with
    | some n => .ok (n, lexeme.length)
    | none => .error ⟨lexeme.length, .malformedNumeral (String.ofList lexeme)⟩

/-! ## Tokens -/

def wordKind (word : String) : TokenKind :=
  match Keyword.ofText? word with
  | some k => .keyword k
  | none => .name word

def startsNumeral (c : Char) (gs : List Glyph) : Bool :=
  c.isDigit || (c == '.' && !(takeUpTo 1 Char.isDigit gs).isEmpty)

def symbol (gs : List Glyph) : Scanned TokenKind :=
  match Symbol.longest? (Glyph.chars (gs.take 3)) with
  | some s => .ok (.symbol s, s.text.length)
  | none => .error ⟨0, .unexpectedByte ((Utf8.encode (Glyph.chars (gs.take 1))).headD 0)⟩

def token (g : Glyph) (gs : List Glyph) : Scanned TokenKind :=
  if isNameStart g.char then
    let word := Glyph.takeWhile isNameChar (g :: gs)
    .ok (wordKind (String.ofList word), word.length)
  else if startsNumeral g.char gs then (number (g :: gs)).map fun (n, k) => (.number n, k)
  else if g.char == '"' || g.char == '\'' then (quoted g.char (g :: gs)).map fun (s, k) => (.string s, k)
  else
    match longLevel? (g :: gs) with
    | some level => (longBracket level (g :: gs)).map fun (s, k) => (.string s, k)
    | none => symbol (g :: gs)

/-! ## Comments -/

def comment (gs : List Glyph) : Scanned String :=
  match longLevel? (gs.drop 2) with
  | some level =>
    match longBracket level (gs.drop 2) with
    | .ok (text, n) => .ok (text, n + 2)
    | .error f => .error (f.shift 2)
  | none =>
    let text := Glyph.takeWhile (· != '\n') (gs.drop 2)
    .ok (String.ofList text, text.length + 2)

/-! ## A whole text -/

inductive Piece where
  | blank
  | comment (comment : Comment)
  | token (token : Token)
deriving DecidableEq, Repr

/-- The piece that begins with the glyph `g`, and how many of the following glyphs belong to it. `code` says whether a
token stands before it on its line. -/
def piece (code : Bool) (stop : Position) (g : Glyph) (gs : List Glyph) : Scanned Piece :=
  let range (n : Nat) : TextRange := ⟨g.range.start, Glyph.startOf ((g :: gs).drop n) stop⟩
  if g.char == '\n' || isBlank g.char then .ok (.blank, 0)
  else if Glyph.startsWith ['-', '-'] (g :: gs) then
    (comment (g :: gs)).map fun (text, n) => (.comment ⟨text, range n, code⟩, n - 1)
  else (token g gs).map fun (kind, n) => (.token ⟨kind, range n⟩, n - 1)

/-- Whether code stands before the next piece on its line: a token counts for the line where it starts, if it also ends
there. -/
def codeAfter (code : Bool) (g : Glyph) : Piece → Bool
  | .blank => code && g.char != '\n'
  | .comment c => code && c.range.start.line == c.range.stop.line
  | .token t => t.range.start.line == t.range.stop.line

def pieces (stop : Position) (code : Bool) (skip : Nat) : List Glyph → Except SyntaxError (List Piece)
  | [] => .ok []
  | g :: gs =>
    match skip with
    | skip + 1 => pieces stop code skip gs
    | 0 =>
      match piece code stop g gs with
      | .error f => .error ⟨Glyph.startOf ((g :: gs).drop f.offset) stop, f.fault⟩
      | .ok (p, n) => (pieces stop (codeAfter code g p) n gs).map (p :: ·)

def hashLine (gs : List Glyph) : Nat :=
  if Glyph.startsWith ['#'] gs then (Glyph.takeWhile (· != '\n') gs).length else 0

end LuaAnalysis.Lexer

namespace LuaAnalysis

/-- The tokens and comments of a text, in order, and the position where it ends. -/
structure Lexed where
  tokens : List Token
  comments : List Comment
  stop : Position
deriving DecidableEq, Repr, Inhabited

/-- Cuts a text into tokens and comments. A first line that starts with `#` is left out. -/
def tokenize (text : String) : Except SyntaxError Lexed :=
  let glyphs := Glyph.ofText text
  let stop := Glyph.endOf {} glyphs
  (Lexer.pieces stop false (Lexer.hashLine glyphs) glyphs).map fun pieces =>
    { tokens := pieces.filterMap fun | .token t => some t | _ => none
      comments := pieces.filterMap fun | .comment c => some c | _ => none
      stop }

end LuaAnalysis
