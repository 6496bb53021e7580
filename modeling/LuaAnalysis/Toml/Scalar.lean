import LuaAnalysis.Number.Binary64
import LuaAnalysis.Regex.Unicode
import LuaAnalysis.Text.Blank
import LuaAnalysis.Toml.Basic

/-!
# Scalars of TOML

Strings in four spellings, integers, floats, booleans, and dates and times.
-/

namespace LuaAnalysis.Toml

/-- A reader of the text that is left. -/
abbrev ReadM := StateT (List Char) Option

namespace Read

def peek? : ReadM (Option Char) := do
  return (← get).head?

def next : ReadM Char := do
  match ← get with
  | [] => failure
  | c :: cs =>
    set cs
    return c

def exactly (text : String) : ReadM Unit := do
  match Text.dropPrefix? text.toList (← get) with
  | some rest => set rest
  | none => failure

/-- Takes a text if it stands here. -/
def eat (text : String) : ReadM Bool := do
  match Text.dropPrefix? text.toList (← get) with
  | some rest =>
    set rest
    return true
  | none => return false

def run (p : Char → Bool) : ReadM (List Char) := do
  let cs ← get
  set (cs.dropWhile p)
  return cs.takeWhile p

def orElse (a b : ReadM α) : ReadM α := fun cs =>
  match a cs with
  | some r => some r
  | none => b cs

def optional (a : ReadM α) : ReadM (Option α) :=
  orElse (some <$> a) (return none)

def blanks : ReadM Unit :=
  discard (run fun c => c == ' ' || c == '\t')

def newline : ReadM Unit :=
  orElse (exactly "\n") (exactly "\r\n")

/-! ## Strings -/

def isCommentChar (c : Char) : Bool :=
  c == '\t' || (0x20 ≤ c.toNat && c.toNat ≤ 0x7E) || 0x80 ≤ c.toNat

/-- Characters that stand for themselves between double quotes. -/
def isBasicChar (c : Char) : Bool :=
  isCommentChar c && c != '"' && c != '\\'

def isLiteralChar (c : Char) : Bool :=
  isCommentChar c && c != '\''

def isHex (c : Char) : Bool :=
  c.isDigit || ('a' ≤ c && c ≤ 'f') || ('A' ≤ c && c ≤ 'F')

def hexDigit (c : Char) : Nat :=
  c.toNat - (if c.isDigit then 48 else if c.isUpper then 55 else 87)

def codePoint (width : Nat) : ReadM Char := do
  let cs ← get
  let digits := cs.take width
  if digits.length < width || !digits.all isHex then failure
  set (cs.drop width)
  let n := digits.foldl (fun n c => 16 * n + hexDigit c) 0
  if n < 0xD800 || (0xDFFF < n && n ≤ 0x10FFFF) then return Char.ofNat n else failure

def escaped : ReadM Char := do
  match ← next with
  | 'b' => return '\x08'
  | 't' => return '\t'
  | 'n' => return '\n'
  | 'f' => return '\x0c'
  | 'r' => return '\r'
  | '"' => return '"'
  | '\\' => return '\\'
  | 'u' => codePoint 4
  | 'U' => codePoint 8
  | _ => failure

def basicBody : Nat → ReadM (List Char)
  | 0 => failure
  | n + 1 => do
    match ← next with
    | '"' => return []
    | '\\' => return (← escaped) :: (← basicBody n)
    | c => if isBasicChar c then return c :: (← basicBody n) else failure

def basicString : ReadM String := do
  exactly "\""
  return String.ofList (← basicBody (← get).length)

def literalString : ReadM String := do
  exactly "'"
  let text ← run isLiteralChar
  exactly "'"
  return String.ofList text

/-- The end of a string in triple quotes, where at least three quotes stand: up to two more belong to the text. -/
def closingQuotes (quote : Char) : ReadM (List Char) := do
  let quotes := ((← get).takeWhile (· == quote)).length
  let extra := min (quotes - 3) 2
  modify (·.drop (extra + 3))
  return List.replicate extra quote

/-- Whether three quotes stand here. -/
def atTripleQuote (quote : Char) : ReadM Bool := do
  return ((← get).take 3) == [quote, quote, quote]

/-- The text without the spaces, tabs and ends of lines at its start. -/
def dropBlankLines : List Char → List Char
  | [] => []
  | '\r' :: '\n' :: cs => dropBlankLines cs
  | c :: cs => if c == ' ' || c == '\t' || c == '\n' then dropBlankLines cs else c :: cs

/-- The blank rest of a line after a backslash, with all blank lines and spaces after it. -/
def lineContinuation : ReadM Unit := do
  blanks
  newline
  modify dropBlankLines

/-- The rest of a string in triple double quotes. -/
def multilineBasicBody : Nat → ReadM (List Char)
  | 0 => failure
  | n + 1 => do
    if ← atTripleQuote '"' then return ← closingQuotes '"'
    match ← peek? with
    | some '\\' =>
      discard next
      match ← optional lineContinuation with
      | some () => multilineBasicBody n
      | none => return (← escaped) :: (← multilineBasicBody n)
    | some '"' =>
      discard next
      return '"' :: (← multilineBasicBody n)
    | some c =>
      if isBasicChar c then
        discard next
        return c :: (← multilineBasicBody n)
      else
        newline
        return '\n' :: (← multilineBasicBody n)
    | none => failure

/-- The rest of a string in triple single quotes. -/
def multilineLiteralBody : Nat → ReadM (List Char)
  | 0 => failure
  | n + 1 => do
    if ← atTripleQuote '\'' then return ← closingQuotes '\''
    match ← peek? with
    | some c =>
      if isLiteralChar c || c == '\'' then
        discard next
        return c :: (← multilineLiteralBody n)
      else
        newline
        return '\n' :: (← multilineLiteralBody n)
    | none => failure

/-- A string in any spelling. An end of line right after three quotes is dropped. -/
def string : ReadM String := do
  if ← eat "\"\"\"" then
    discard (optional newline)
    return String.ofList (← multilineBasicBody ((← get).length + 1))
  if ← eat "'''" then
    discard (optional newline)
    return String.ofList (← multilineLiteralBody ((← get).length + 1))
  orElse basicString literalString

/-! ## Numbers -/

/-- Digits that may have an underscore between two of them, from the second digit on. -/
def moreDigits (p : Char → Bool) : Nat → ReadM (List Char)
  | 0 => return []
  | n + 1 => do
    match ← get with
    | '_' :: c :: cs =>
      if !p c then failure
      set cs
      return c :: (← moreDigits p n)
    | '_' :: [] => failure
    | c :: cs =>
      if p c then
        set cs
        return c :: (← moreDigits p n)
      else return []
    | [] => return []

def digits (p : Char → Bool) : ReadM (List Char) := do
  let c ← next
  if !p c then failure
  return c :: (← moreDigits p (← get).length)

/-- Whether a minus sign stood here; a plus sign may stand instead. -/
def sign : ReadM Bool := do
  if ← eat "-" then return true
  discard (eat "+")
  return false

/-- Decimal digits without a leading zero. -/
def plainDigits : ReadM (List Char) := do
  if ← eat "0" then return ['0']
  digits Char.isDigit

def valueOf (base : Nat) (ds : List Char) : Nat :=
  ds.foldl (fun n c => base * n + hexDigit c) 0

def decimalInteger : ReadM Item := do
  let negative ← sign
  let n := valueOf 10 (← plainDigits)
  if n < 1 <<< 63 || (negative && n == 1 <<< 63) then return .scalar else failure

def markedInteger (mark : String) (base : Nat) (p : Char → Bool) : ReadM Item := do
  exactly mark
  if valueOf base (← digits p) < 1 <<< 63 then return .scalar else failure

def integer : ReadM Item :=
  orElse (markedInteger "0x" 16 isHex) (orElse (markedInteger "0o" 8 fun c => '0' ≤ c && c ≤ '7')
    (orElse (markedInteger "0b" 2 fun c => c == '0' || c == '1') decimalInteger))

def exponent : ReadM Int := do
  let c ← next
  if c != 'e' && c != 'E' then failure
  let negative ← sign
  let n := valueOf 10 (← digits Char.isDigit)
  return if negative then -n else n

/-- A float; one that is too large is refused, unless it is negative. -/
def decimalFloat : ReadM Item := do
  let negative ← sign
  let whole ← plainDigits
  let (fraction, power) ← orElse (do return ([], ← exponent)) do
    exactly "."
    let fraction ← digits Char.isDigit
    return (fraction, (← optional exponent).getD 0)
  let bits := Binary64.ofDecimal (valueOf 10 (whole ++ fraction)) (power - fraction.length)
  if bits == Binary64.infinity && !negative then failure
  return .scalar

def specialFloat : ReadM Item := do
  discard sign
  orElse (exactly "inf") (exactly "nan")
  return .scalar

/-! ## Dates and times -/

/-- A number of exactly `width` digits between two bounds. -/
def fixedNumber (width lo hi : Nat) : ReadM Nat := do
  let cs ← get
  let ds := cs.take width
  if ds.length < width || !ds.all Char.isDigit then failure
  set (cs.drop width)
  let n := valueOf 10 ds
  if lo ≤ n && n ≤ hi then return n else failure

def daysIn (year month : Nat) : Nat :=
  if month == 2 then
    if year % 4 == 0 && (year % 100 != 0 || year % 400 == 0) then 29 else 28
  else if [4, 6, 9, 11].contains month then 30
  else 31

def date : ReadM Unit := do
  let year ← fixedNumber 4 0 9999
  exactly "-"
  let month ← fixedNumber 2 1 12
  exactly "-"
  discard (fixedNumber 2 1 (daysIn year month))

/-- A time of day; a leap second is allowed. -/
def time : ReadM Unit := do
  discard (fixedNumber 2 0 23)
  exactly ":"
  discard (fixedNumber 2 0 59)
  exactly ":"
  discard (fixedNumber 2 0 60)
  if ← eat "." then
    if (← run Char.isDigit).isEmpty then failure

def offset : ReadM Unit := do
  let c ← next
  if c == 'Z' || c == 'z' then return
  if c != '+' && c != '-' then failure
  discard (fixedNumber 2 0 23)
  exactly ":"
  discard (fixedNumber 2 0 59)

def dateTime : ReadM Item := do
  orElse
    (do
      date
      discard (optional do
        let c ← next
        if c != 'T' && c != 't' && c != ' ' then failure
        time
        discard (optional offset)))
    time
  return .dateTime

/-! ## Scalars -/

def boolean : ReadM Item := do
  orElse (exactly "true") (exactly "false")
  return .scalar

def scalar : ReadM Item := do
  match ← peek? with
  | some '"' | some '\'' => return .text (← string)
  | some 't' | some 'f' => boolean
  | _ => orElse dateTime (orElse decimalFloat (orElse specialFloat integer))

end Read

end LuaAnalysis.Toml
