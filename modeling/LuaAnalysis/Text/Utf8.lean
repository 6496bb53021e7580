/-!
# Text of bytes

Bytes that need not be valid UTF-8 are read as text in one way only: each maximal part that cannot belong to a
well-formed sequence becomes one replacement character, and everything else is kept.
-/

namespace LuaAnalysis.Utf8

def replacement : Char := Char.ofNat 0xFFFD

def encode (cs : List Char) : List UInt8 :=
  cs.flatMap String.utf8EncodeChar

def size (cs : List Char) : Nat :=
  cs.foldl (fun n c => n + c.utf8Size) 0

def isContinuation (b : UInt8) : Bool :=
  0x80 ≤ b && b ≤ 0xBF

/-- The second bytes that may follow the first byte `b` of a sequence of three or four: overlong forms, surrogates and
values above the last code point are left out. -/
def allowsSecond (b c : UInt8) : Bool :=
  if b == 0xE0 then 0xA0 ≤ c && c ≤ 0xBF
  else if b == 0xED then 0x80 ≤ c && c ≤ 0x9F
  else if b == 0xF0 then 0x90 ≤ c && c ≤ 0xBF
  else if b == 0xF4 then 0x80 ≤ c && c ≤ 0x8F
  else isContinuation c

def payload (b : UInt8) : Nat :=
  b.toNat % 64

/-- The character that starts with byte `b`, and how many of the following bytes belong to it. -/
def decodeStep (b : UInt8) (rest : List UInt8) : Char × Nat :=
  if b < 0x80 then (Char.ofNat b.toNat, 0)
  else if 0xC2 ≤ b && b ≤ 0xDF then
    match rest with
    | c :: _ =>
      if isContinuation c then (Char.ofNat ((b.toNat % 32) * 64 + payload c), 1) else (replacement, 0)
    | [] => (replacement, 0)
  else if 0xE0 ≤ b && b ≤ 0xEF then
    match rest with
    | c :: d :: _ =>
      if !allowsSecond b c then (replacement, 0)
      else if !isContinuation d then (replacement, 1)
      else (Char.ofNat ((b.toNat % 16) * 4096 + payload c * 64 + payload d), 2)
    | [c] => (replacement, if allowsSecond b c then 1 else 0)
    | [] => (replacement, 0)
  else if 0xF0 ≤ b && b ≤ 0xF4 then
    match rest with
    | c :: d :: e :: _ =>
      if !allowsSecond b c then (replacement, 0)
      else if !isContinuation d then (replacement, 1)
      else if !isContinuation e then (replacement, 2)
      else (Char.ofNat ((b.toNat % 8) * 262144 + payload c * 4096 + payload d * 64 + payload e), 3)
    | [c, d] =>
      (replacement, if !allowsSecond b c then 0 else if isContinuation d then 2 else 1)
    | [c] => (replacement, if allowsSecond b c then 1 else 0)
    | [] => (replacement, 0)
  else (replacement, 0)

/-- Reads the bytes after the first `skip` of them. -/
def decodeFrom (skip : Nat) : List UInt8 → List Char
  | [] => []
  | b :: rest =>
    match skip with
    | skip + 1 => decodeFrom skip rest
    | 0 => (decodeStep b rest).1 :: decodeFrom (decodeStep b rest).2 rest

/-- The text of bytes, with a replacement character for each maximal ill-formed part. -/
def decodeLossy (bytes : List UInt8) : List Char :=
  decodeFrom 0 bytes

/-- The text of bytes that are well-formed UTF-8. -/
def decode? (bytes : List UInt8) : Option String :=
  String.fromUTF8? bytes.toByteArray

end LuaAnalysis.Utf8
