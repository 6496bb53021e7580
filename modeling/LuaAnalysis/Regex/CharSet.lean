/-!
# Sets of characters

A set is a list of ranges of code points, in increasing order and apart from each other. Code points that are no
characters may lie in a range; they never occur in a text.
-/

namespace LuaAnalysis

/-- The characters whose code point lies in one of the ranges, both ends included. -/
structure CharSet where
  ranges : List (Nat × Nat) := []
deriving DecidableEq, Repr, Inhabited

namespace CharSet

def top : Nat := 0x10FFFF

def contains (s : CharSet) (c : Char) : Bool :=
  s.ranges.any fun (lo, hi) => lo ≤ c.toNat && c.toNat ≤ hi

def range (lo hi : Nat) : CharSet :=
  if lo ≤ hi then ⟨[(lo, hi)]⟩ else {}

def single (c : Char) : CharSet :=
  range c.toNat c.toNat

def all : CharSet :=
  range 0 top

/-- Joins ranges in order of their starts wherever they overlap or touch. -/
def join : List (Nat × Nat) → List (Nat × Nat)
  | [] => []
  | (lo, hi) :: rs =>
    match join rs with
    | [] => [(lo, hi)]
    | (lo', hi') :: rest => if lo' ≤ hi + 1 then (lo, max hi hi') :: rest else (lo, hi) :: (lo', hi') :: rest

def ofRanges (rs : List (Nat × Nat)) : CharSet :=
  ⟨join ((rs.filter fun (lo, hi) => lo ≤ hi).mergeSort fun a b => a.1 < b.1 || (a.1 == b.1 && a.2 ≤ b.2))⟩

def union (s t : CharSet) : CharSet :=
  ofRanges (s.ranges ++ t.ranges)

def gaps (lo : Nat) : List (Nat × Nat) → List (Nat × Nat)
  | [] => if lo ≤ top then [(lo, top)] else []
  | (a, b) :: rs => if lo < a then (lo, a - 1) :: gaps (b + 1) rs else gaps (b + 1) rs

def compl (s : CharSet) : CharSet :=
  ⟨gaps 0 s.ranges⟩

def inter (s t : CharSet) : CharSet :=
  (s.compl.union t.compl).compl

def diff (s t : CharSet) : CharSet :=
  s.inter t.compl

def symmDiff (s t : CharSet) : CharSet :=
  (s.diff t).union (t.diff s)

def isEmpty (s : CharSet) : Bool :=
  s.ranges.isEmpty

end CharSet

end LuaAnalysis
