import LuaAnalysis.Number.Binary64

/-!
# Numerals of Lua

A numeral is read from its lexeme. Decimal numerals are rounded once, from their exact value. Hexadecimal integers wrap
around at 64 bits and are read as signed; hexadecimal numerals with a point or an exponent are accumulated digit by
digit in floating point.
-/

namespace LuaAnalysis

/-- A number of a source text: its bits, and whether it was written as a float. -/
structure Numeral where
  bits : UInt64
  isFloat : Bool
deriving DecidableEq, Repr, Inhabited

namespace Numeral

def digitValue? (c : Char) : Option Nat :=
  if '0' ≤ c && c ≤ '9' then some (c.toNat - '0'.toNat)
  else if 'a' ≤ c && c ≤ 'f' then some (c.toNat - 'a'.toNat + 10)
  else if 'A' ≤ c && c ≤ 'F' then some (c.toNat - 'A'.toNat + 10)
  else none

def isHexDigit (c : Char) : Bool :=
  (digitValue? c).isSome

/-- The number that decimal digits write; `none` for any other character and for no digit at all. -/
def ofDigits? (cs : List Char) : Option Nat :=
  if !cs.isEmpty && cs.all Char.isDigit then
    some (cs.foldl (fun n c => n * 10 + (c.toNat - '0'.toNat)) 0)
  else none

def ofSigned? (cs : List Char) : Option Int :=
  match cs with
  | '+' :: ds => (ofDigits? ds).map Int.ofNat
  | '-' :: ds => (ofDigits? ds).map fun n => -(n : Int)
  | ds => (ofDigits? ds).map Int.ofNat

/-- The parts of a text around its first `c`; the second is missing when there is none. -/
def cutAt (c : Char) (cs : List Char) : List Char × Option (List Char) :=
  match cs.dropWhile (· != c) with
  | [] => (cs, none)
  | _ :: rest => (cs.takeWhile (· != c), some rest)

/-- Two to the `e`, computed as a power of two and, for a negative `e`, as its reciprocal: powers beyond the largest
number are infinite, and so their reciprocals are zero. -/
def twoPower (e : Int) : Float :=
  if e ≤ -1024 then 0
  else if 1024 ≤ e then Float.ofBits Binary64.infinity
  else if e = -1023 then Float.ofBits 0x0008000000000000
  else Float.ofBits ((e + 1023).toNat <<< 52).toUInt64

/-- A hexadecimal integer, modulo two to the 64. -/
def hexWord? (cs : List Char) : Option UInt64 :=
  cs.foldlM (fun (n : UInt64) c => (digitValue? c).map fun d => n * 16 + d.toUInt64) 0

/-- The digits before the point of a hexadecimal float. -/
def hexWhole? (cs : List Char) : Option Float :=
  cs.foldlM (fun (v : Float) c => (digitValue? c).map fun d => v * 16 + d.toFloat) 0

/-- The digits after the point, added to `v`; each counts `scale`, a sixteenth of the one before it. -/
def addHexFraction? (v scale : Float) : List Char → Option Float
  | [] => some v
  | c :: cs => (digitValue? c).bind fun d => addHexFraction? (v + d.toFloat * scale) (scale / 16) cs

/-- The exponent after `p` fits 32 bits; a numeral without one has exponent zero. -/
def hexExponent? : Option (List Char) → Option Int
  | none => some 0
  | some cs => (ofSigned? cs).filter fun e => -0x80000000 ≤ e && e < 0x80000000

/-- A hexadecimal numeral with a point or an exponent. -/
def hexFloat? (cs : List Char) : Option Float := do
  let (mantissa, exponent) := cutAt 'p' cs
  let e ← hexExponent? exponent
  let (whole, fraction) := cutAt '.' mantissa
  let v ← hexWhole? whole
  let v ← addHexFraction? v (1 / 16) (fraction.getD [])
  return v * twoPower e

/-- The bits of a decimal numeral: digits with an optional fraction and an optional exponent, and at least one digit
before the exponent. -/
def decimal? (cs : List Char) : Option UInt64 := do
  let (mantissa, exponent) := cutAt 'e' cs
  let e ← match exponent with
    | none => some 0
    | some ds => ofSigned? ds
  let (whole, fraction) := cutAt '.' mantissa
  let fraction := fraction.getD []
  let m ← ofDigits? (whole ++ fraction)
  return Binary64.ofDecimal m (e - fraction.length)

def ofLower? (cs : List Char) : Option Numeral :=
  match cs with
  | '0' :: 'x' :: hex =>
    if hex.any fun c => c == '.' || c == 'p' then (hexFloat? hex).map fun v => ⟨v.toBits, true⟩
    else (hexWord? hex).map fun n => ⟨n.toInt64.toFloat.toBits, false⟩
  | _ => (decimal? cs).map fun bits => ⟨bits, cs.any fun c => c == '.' || c == 'e'⟩

def ofLexeme? (cs : List Char) : Option Numeral :=
  ofLower? (cs.map Char.toLower)

def value (n : Numeral) : Float :=
  Float.ofBits n.bits

/-- Equality of the numbers, however they were written. -/
def sameValue (a b : Numeral) : Bool :=
  a.value == b.value

def keyBits (n : Numeral) : UInt64 :=
  if n.bits = 0x8000000000000000 then 0 else n.bits

end Numeral

end LuaAnalysis
