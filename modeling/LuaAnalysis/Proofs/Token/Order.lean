import LuaAnalysis.Token.Lexer

/-!
# Tokens stand in order

Tokens that stand in order follow each other without overlapping and end before their text does. The
lexer cuts a text into pieces, and its tokens and comments are those pieces that are not blank.
-/

namespace LuaAnalysis

variable {a b : TextRange} {p : Position} {gs : List Glyph}

namespace TextRange

/-- The first range ends where the second one starts, or earlier. -/
def Before (a b : TextRange) : Prop :=
  a.stop ≤ b.start

instance (a b : TextRange) : Decidable (a.Before b) :=
  inferInstanceAs (Decidable (a.stop ≤ b.start))

theorem Before.not_overlaps (h : a.Before b) : a.overlaps b = false ∧ b.overlaps a = false := by
  have hlt : ¬ b.start < a.stop := Position.not_lt.2 h
  simp [overlaps, hlt]

theorem containsRange_iff : a.containsRange b = true ↔ a.start ≤ b.start ∧ b.stop ≤ a.stop := by
  simp [containsRange]

theorem cover_of_le (hstart : a.start ≤ b.start) (hstop : a.stop ≤ b.stop) :
    a.cover b = ⟨a.start, b.stop⟩ := by
  have hlt : ¬ b.start < a.start := Position.not_lt.2 hstart
  have hmin : min a.start b.start = a.start := if_neg hlt
  have hmax : max a.stop b.stop = b.stop := if_pos hstop
  rw [cover, hmin, hmax]

end TextRange

/-! ## Stretches of tokens -/

namespace Token

def startOf : List Token → Position → Position
  | [], next => next
  | t :: _, _ => t.range.start

def stopOf : List Token → Position → Position
  | [], p => p
  | t :: ts, _ => stopOf ts t.range.stop

/-- From the start of the first token to the end of the last one. The range of no tokens is empty
and stands where the next token starts. -/
def span (ts : List Token) (next : Position) : TextRange :=
  ⟨startOf ts next, stopOf ts next⟩

/-- Every token ends before the next one starts, and the last one before `next`. -/
def InOrder : List Token → Position → Prop
  | [], _ => True
  | t :: ts, next => t.range.start ≤ t.range.stop ∧ t.range.stop ≤ startOf ts next ∧ InOrder ts next

variable {ts us : List Token} {p next : Position}

theorem startOf_append : startOf (us ++ ts) next = startOf us (startOf ts next) := by
  cases us <;> rfl

theorem stopOf_append (p : Position) : stopOf (us ++ ts) p = stopOf ts (stopOf us p) := by
  induction us generalizing p with
  | nil => rfl
  | cons t us ih => exact ih _

theorem stopOf_of_ne_nil (h : ts ≠ []) {q : Position} : stopOf ts p = stopOf ts q := by
  cases ts with
  | nil => exact absurd rfl h
  | cons t ts => rfl

theorem inOrder_append :
    InOrder (us ++ ts) next ↔ InOrder us (startOf ts next) ∧ InOrder ts next := by
  induction us with
  | nil => simp [InOrder]
  | cons t us ih => simp only [List.cons_append, InOrder, startOf_append, ih, and_assoc]

section

variable (h : InOrder ts next)
include h

theorem InOrder.startOf_le : startOf ts next ≤ next := by
  induction ts with
  | nil => exact Position.le_refl _
  | cons t ts ih => exact Position.le_trans h.1 (Position.le_trans h.2.1 (ih h.2.2))

theorem InOrder.startOf_le_mem {t : Token} (ht : t ∈ ts) : startOf ts next ≤ t.range.start := by
  induction ts with
  | nil => cases ht
  | cons u ts ih =>
    rcases List.mem_cons.1 ht with rfl | ht
    · exact Position.le_refl _
    · exact Position.le_trans h.1 (Position.le_trans h.2.1 (ih h.2.2 ht))

theorem InOrder.le_stopOf (hp : p ≤ startOf ts next) : p ≤ stopOf ts p := by
  induction ts generalizing p with
  | nil => exact Position.le_refl _
  | cons t ts ih => exact Position.le_trans (Position.le_trans hp h.1) (ih h.2.2 h.2.1)

theorem InOrder.stopOf_le (hp : p ≤ startOf ts next) : stopOf ts p ≤ next := by
  induction ts generalizing p with
  | nil => exact hp
  | cons t ts ih => exact ih h.2.2 h.2.1

theorem InOrder.span_stop_le : (span ts next).stop ≤ next := by
  cases ts with
  | nil => exact Position.le_refl _
  | cons t ts => exact h.2.2.stopOf_le h.2.1

theorem InOrder.span_start_le : (span ts next).start ≤ (span ts next).stop := by
  cases ts with
  | nil => exact Position.le_refl _
  | cons t ts => exact Position.le_trans h.1 (h.2.2.le_stopOf h.2.1)

end

end Token

/-! ## Glyphs -/

namespace Glyph

theorem le_nextLine : p ≤ p.nextLine := by
  rw [Position.le_iff]
  exact .inl (Nat.lt_succ_self _)

theorem le_right {n : Nat} : p ≤ p.right n := by
  rw [Position.le_iff]
  exact .inr ⟨rfl, Nat.le_add_right _ _⟩

theorem endOf_cons {g : Glyph} : endOf p (g :: gs) = endOf g.range.stop gs := by
  unfold endOf
  rw [List.getLast?_cons]
  cases gs.getLast? <;> rfl

end Glyph

/-! ## The lexer -/

theorem eq_ok_of_toOption {ε : Type} {r : Except ε α} {x : α} (h : r.toOption = some x) :
    r = .ok x := by
  cases r with
  | error e => cases h
  | ok y => cases h; rfl

namespace Lexer

def Piece.token? : Piece → Option Token
  | .token t => some t
  | _ => none

def Piece.comment? : Piece → Option Comment
  | .comment c => some c
  | _ => none

end Lexer

theorem exists_pieces_of_tokenize {text : String} {lexed : Lexed} (h : tokenize text = .ok lexed) :
    ∃ ps, Lexer.pieces (Glyph.endOf {} (Glyph.ofText text)) false
      (Lexer.hashLine (Glyph.ofText text)) (Glyph.ofText text) = .ok ps ∧
      lexed = ⟨ps.filterMap Lexer.Piece.token?, ps.filterMap Lexer.Piece.comment?,
        Glyph.endOf {} (Glyph.ofText text)⟩ := by
  unfold tokenize at h
  cases hpieces :
    Lexer.pieces (Glyph.endOf {} (Glyph.ofText text)) false (Lexer.hashLine (Glyph.ofText text))
      (Glyph.ofText text) with
  | error e => simp only [hpieces] at h; cases h
  | ok ps =>
    simp only [hpieces] at h
    cases h
    refine ⟨ps, rfl, ?_⟩
    congr 2

end LuaAnalysis
