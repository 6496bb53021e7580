/-!
# Positions and ranges in a source text

Lines and columns count from zero, and a column counts the UTF-8 bytes that stand before the position on its line.
Positions are ordered by line and then by column, ranges by their start and then by their end.
-/

namespace LuaAnalysis

/-- A place between two bytes of a source text. -/
structure Position where
  line : Nat := 0
  column : Nat := 0
deriving DecidableEq, Repr, Inhabited, Hashable

namespace Position

protected def le (a b : Position) : Bool :=
  a.line < b.line || (a.line == b.line && a.column ≤ b.column)

protected def lt (a b : Position) : Bool :=
  a.line < b.line || (a.line == b.line && a.column < b.column)

instance : LE Position := ⟨fun a b => a.le b = true⟩
instance : LT Position := ⟨fun a b => a.lt b = true⟩

instance (a b : Position) : Decidable (a ≤ b) := inferInstanceAs (Decidable (a.le b = true))
instance (a b : Position) : Decidable (a < b) := inferInstanceAs (Decidable (a.lt b = true))

instance : Ord Position where
  compare a b := (compare a.line b.line).then (compare a.column b.column)

instance : Min Position := ⟨fun a b => if b < a then b else a⟩
instance : Max Position := ⟨fun a b => if a ≤ b then b else a⟩

def right (p : Position) (n : Nat) : Position :=
  { p with column := p.column + n }

def nextLine (p : Position) : Position :=
  { line := p.line + 1, column := 0 }

theorem le_iff {a b : Position} :
    a ≤ b ↔ a.line < b.line ∨ (a.line = b.line ∧ a.column ≤ b.column) := by
  show a.le b = true ↔ _
  simp [Position.le]

theorem lt_iff {a b : Position} :
    a < b ↔ a.line < b.line ∨ (a.line = b.line ∧ a.column < b.column) := by
  show a.lt b = true ↔ _
  simp [Position.lt]

protected theorem le_refl (a : Position) : a ≤ a := by
  simp [le_iff]

protected theorem le_trans {a b c : Position} (h : a ≤ b) (k : b ≤ c) : a ≤ c := by
  rw [le_iff] at *
  omega

protected theorem le_of_lt {a b : Position} (h : a < b) : a ≤ b := by
  rw [le_iff]
  rw [lt_iff] at h
  omega

protected theorem not_lt {a b : Position} : ¬ a < b ↔ b ≤ a := by
  rw [le_iff, lt_iff]
  omega

protected theorem le_antisymm {a b : Position} (h : a ≤ b) (k : b ≤ a) : a = b := by
  rw [le_iff] at h k
  cases a
  cases b
  simp only [Position.mk.injEq] at *
  omega

end Position

/-- The part of a source text between two positions. -/
structure TextRange where
  start : Position := {}
  stop : Position := {}
deriving DecidableEq, Repr, Inhabited, Hashable

namespace TextRange

def ofCoords (l c l' c' : Nat) : TextRange :=
  { start := ⟨l, c⟩, stop := ⟨l', c'⟩ }

def cover (a b : TextRange) : TextRange :=
  { start := min a.start b.start, stop := max a.stop b.stop }

/-- Both ends belong to a range. -/
def contains (r : TextRange) (p : Position) : Bool :=
  r.start ≤ p && p ≤ r.stop

def containsRange (r s : TextRange) : Bool :=
  r.start ≤ s.start && s.stop ≤ r.stop

/-- Ranges that only touch do not overlap. -/
def overlaps (r s : TextRange) : Bool :=
  r.start < s.stop && s.start < r.stop

instance : Ord TextRange where
  compare a b := (compare a.start b.start).then (compare a.stop b.stop)

end TextRange

end LuaAnalysis
