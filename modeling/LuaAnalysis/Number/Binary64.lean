/-!
# Binary floating point numbers of 64 bits

A number is known by its bits. Reading rounds an exact quotient to the nearest number, a half to the even neighbour;
writing takes the fewest digits that read back and, of those, the decimal nearest to the number.
-/

namespace LuaAnalysis.Binary64

def infinity : UInt64 := 0x7FF0000000000000

/-- The quotient rounded to the nearest whole number, a half to the even one. -/
def roundQuotient (num den : Nat) : Nat :=
  let q := num / den
  let r := num % den
  if 2 * r > den || (2 * r == den && q % 2 == 1) then q + 1 else q

/-- The quotient `num / den` times two to the `-e`, again as a quotient. -/
def scaleDown (num den : Nat) (e : Int) : Nat × Nat :=
  (num <<< (-e).toNat, den <<< e.toNat)

def lastPlace (num den : Nat) : Int :=
  let e : Int := (Nat.log2 num : Int) - (Nat.log2 den : Int) - 52
  let (n, d) := scaleDown num den e
  max (-1074) (if n / d < 1 <<< 52 then e - 1 else e)

def ofRatio (num den : Nat) : UInt64 :=
  if num = 0 then 0
  else
    let e := lastPlace num den
    let (n, d) := scaleDown num den e
    let bits := (e + 1074).toNat <<< 52 + roundQuotient n d
    if infinity.toNat ≤ bits then infinity else bits.toUInt64

def digitCount (n : Nat) : Nat :=
  (Nat.toDigits 10 n).length

/-- The bits of the number nearest to `m` times ten to the `e`. -/
def ofDecimal (m : Nat) (e : Int) : UInt64 :=
  let top := e + digitCount m
  if m = 0 || top < -330 then 0
  else if top > 310 then infinity
  else ofRatio (m * Nat.pow 10 e.toNat) (Nat.pow 10 (-e).toNat)

def isNegative (bits : UInt64) : Bool :=
  bits >>> 63 == 1

def exponentField (bits : UInt64) : Nat :=
  ((bits >>> 52) &&& 0x7FF).toNat

def fractionField (bits : UInt64) : Nat :=
  (bits &&& 0xFFFFFFFFFFFFF).toNat

def isNaN (bits : UInt64) : Bool :=
  exponentField bits == 0x7FF && fractionField bits != 0

def isInfinite (bits : UInt64) : Bool :=
  exponentField bits == 0x7FF && fractionField bits == 0

/-- The magnitude of a finite number as a whole number times a power of two. -/
def magnitude (bits : UInt64) : Nat × Int :=
  if exponentField bits = 0 then (fractionField bits, -1074)
  else (1 <<< 52 + fractionField bits, (exponentField bits : Int) - 1075)

/-- A decimal: `digits` times ten to the `exponent`. -/
structure Decimal where
  digits : Nat
  exponent : Int
deriving DecidableEq, Repr

/-- The multiple of ten to the `p` that reads back as the number with these bits, and of two such the nearer one; a tie
goes up. -/
def onGrid? (bits : UInt64) (p : Int) : Option Decimal :=
  let (m, q) := magnitude bits
  let lo := if m = 1 <<< 52 && exponentField bits > 1 then 4 * m - 1 else 4 * m - 2
  let hi := 4 * m + 2
  let a := Nat.pow 10 p.toNat <<< (2 - q).toNat
  let b := Nat.pow 10 (-p).toNat <<< (q - 2).toNat
  let inside (d : Nat) : Bool :=
    if m % 2 = 0 then lo * b ≤ d * a && d * a ≤ hi * b else lo * b < d * a && d * a < hi * b
  let d := 4 * m * b / a
  let rest := 4 * m * b % a
  match inside d, inside (d + 1) with
  | true, true => some ⟨if 2 * rest < a then d else d + 1, p⟩
  | true, false => some ⟨d, p⟩
  | false, true => some ⟨d + 1, p⟩
  | false, false => none

/-- The decimal with the fewest digits that reads back as a finite number other than zero. -/
def shortest (bits : UInt64) : Decimal :=
  ((List.range 640).findSome? fun (k : Nat) => onGrid? bits (310 - (k : Int))).getD ⟨0, 0⟩

/-- A decimal written without an exponent. -/
def positional (d : Decimal) : String :=
  let digits := Nat.toDigits 10 d.digits
  if 0 ≤ d.exponent then
    String.ofList (digits ++ List.replicate d.exponent.toNat '0')
  else
    let places := (-d.exponent).toNat
    let padded := List.replicate (places + 1 - digits.length) '0' ++ digits
    String.ofList (padded.take (padded.length - places) ++ '.' :: padded.drop (padded.length - places))

/-- The text of a number: its shortest decimal, never with an exponent, and without a point when it is whole. -/
def toText (bits : UInt64) : String :=
  if isNaN bits then "NaN"
  else
    let sign := if isNegative bits then "-" else ""
    if isInfinite bits then sign ++ "inf"
    else if (magnitude bits).1 = 0 then sign ++ "0"
    else sign ++ positional (shortest bits)

end LuaAnalysis.Binary64
