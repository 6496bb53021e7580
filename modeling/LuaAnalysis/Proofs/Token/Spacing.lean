import LuaAnalysis.Proofs.Token.Order

/-!
# How far tokens reach

A token is a word, a sign, or a numeral or string (`token_cases`). It takes at least one glyph, and
a word is read as far as it goes. The pieces of a text are blanks, comments and tokens, one after
another (`pieces_cons`, `piece_cases`).
-/

namespace LuaAnalysis

open Bool

namespace Position

protected theorem lt_of_lt_of_le {a b c : Position} (h : a < b) (k : b ≤ c) : a < c := by
  rw [lt_iff] at *
  rw [le_iff] at k
  omega

protected theorem lt_of_le_of_lt {a b c : Position} (h : a ≤ b) (k : b < c) : a < c := by
  rw [lt_iff] at *
  rw [le_iff] at h
  omega

protected theorem lt_irrefl {a : Position} : ¬ a < a := by
  simp [lt_iff]

end Position

def TokenKind.isName : TokenKind → Bool
  | name _ => true
  | _ => false

def TokenKind.spelling? : TokenKind → Option String
  | name text => some text
  | keyword word => some word.text
  | symbol sign => some sign.text
  | string _ | number _ => none

namespace Token

/-- The second token stands behind the first one, and they do not touch if both are names. -/
structure Apart (t u : Token) : Prop where
  le : t.range.stop ≤ u.range.start
  lt : t.kind.isName = true → u.kind.isName = true → t.range.stop < u.range.start

/-- Every token has a width and stands apart from the next one. -/
def Spaced : List Token → Prop
  | [] => True
  | t :: ts => t.range.start < t.range.stop ∧ (∀ u ∈ ts.head?, t.Apart u) ∧ Spaced ts

end Token

/-! ## Glyphs -/

namespace Glyph

theorem not_of_drop_takeWhile {q : Char → Bool} {gs : List Glyph} {g : Glyph}
    (h : g ∈ (gs.drop (takeWhile q gs).length).head?) : q g.char = false := by
  induction gs with
  | nil => simp at h
  | cons a gs ih =>
    rw [takeWhile] at h
    split at h
    · rw [List.length_cons, List.drop_succ_cons] at h
      exact ih h
    · rename_i hq
      cases h
      exact eq_false_iff.2 hq

end Glyph

/-! ## How far tokens reach -/

variable {text : String} {stop : Position}
variable {code : Bool}

namespace Lexer

variable {g : Glyph} {gs : List Glyph} {kind : TokenKind} {n : Nat}

theorem isNameChar_of_isNameStart {c : Char} (h : isNameStart c = true) : isNameChar c = true := by
  rw [isNameStart, or_eq_true] at h
  rw [isNameChar, Char.isAlphanum, or_eq_true, or_eq_true]
  rcases h with h | h
  · exact .inl (.inl h)
  · exact .inr h

theorem isHexDigit_of_isDigit {c : Char} (h : c.isDigit = true) : Numeral.isHexDigit c = true := by
  have hrange : ('0' ≤ c && c ≤ '9') = true := h
  rw [Numeral.isHexDigit, Numeral.digitValue?, if_pos hrange]
  rfl

theorem numeralLexeme_ne_nil (h : startsNumeral g.char gs = true) :
    numeralLexeme (g :: gs) ≠ [] := by
  unfold numeralLexeme
  split
  · simp [Glyph.chars]
  · have hrun : (Numeral.isHexDigit g.char || g.char == '.') = true := by
      rw [startsNumeral, or_eq_true, and_eq_true] at h
      rcases h with h | ⟨h, -⟩
      · simp [isHexDigit_of_isDigit h]
      · simp [h]
    rw [numeralRun, if_pos]
    · simp
    · revert hrun
      cases isExponentMark false g.char <;> simp

theorem quoted_pos {quote : Char} (h : quoted quote gs = .ok (text, n)) : 0 < n := by
  unfold quoted at h
  split at h <;> cases h
  exact Nat.succ_pos _

theorem longBracket_le {level : Nat} (h : longBracket level gs = .ok (text, n)) :
    level + 2 ≤ n := by
  unfold longBracket at h
  dsimp only at h
  split at h <;> cases h
  omega

theorem symbol_pos (h : symbol gs = .ok (kind, n)) : 0 < n := by
  unfold symbol at h
  split at h
  · rename_i s hs
    cases h
    cases s <;> decide
  · cases h

theorem number_pos {numeral : Numeral} (hstarts : startsNumeral g.char gs = true)
    (h : number (g :: gs) = .ok (numeral, n)) : 0 < n := by
  unfold number at h
  dsimp only at h
  split at h
  · cases h
  · split at h <;> cases h
    exact List.length_pos_iff.2 (numeralLexeme_ne_nil hstarts)

theorem token_cases (h : token g gs = .ok (kind, n)) :
    (isNameStart g.char = true ∧
      kind = wordKind (String.ofList (Glyph.takeWhile isNameChar (g :: gs))) ∧
        n = (Glyph.takeWhile isNameChar (g :: gs)).length) ∨
      symbol (g :: gs) = .ok (kind, n) ∨ kind.spelling? = none ∧ 0 < n := by
  unfold token at h
  split at h
  · rename_i hstart
    cases h
    exact .inl ⟨hstart, rfl, rfl⟩
  split at h
  · rename_i hnumeral
    cases hn : number (g :: gs) <;> rw [hn] at h <;> cases h
    exact .inr (.inr ⟨rfl, number_pos hnumeral hn⟩)
  split at h
  · cases hq : quoted g.char (g :: gs) <;> rw [hq] at h <;> cases h
    exact .inr (.inr ⟨rfl, quoted_pos hq⟩)
  split at h
  · rename_i level hlevel
    cases hb : longBracket level (g :: gs) <;> rw [hb] at h <;> cases h
    exact .inr (.inr ⟨rfl, Nat.lt_of_lt_of_le (Nat.succ_pos _) (longBracket_le hb)⟩)
  · exact .inr (.inl h)

theorem token_pos (h : token g gs = .ok (kind, n)) : 0 < n := by
  rcases token_cases h with ⟨hstart, -, rfl⟩ | hsymbol | ⟨-, hpos⟩
  · rw [Glyph.takeWhile, if_pos (isNameChar_of_isNameStart hstart)]
    exact Nat.succ_pos _
  · exact symbol_pos hsymbol
  · exact hpos

/-! ## Pieces -/

theorem pieces_skip (skip : Nat) :
    pieces stop code skip gs = pieces stop code 0 (gs.drop skip) := by
  induction gs generalizing skip with
  | nil => rw [List.drop_nil, pieces, pieces]
  | cons g gs ih =>
    cases skip with
    | zero => rfl
    | succ skip => rw [List.drop_succ_cons, ← ih, pieces]

theorem pieces_cons {ps : List Piece} (h : pieces stop code 0 (g :: gs) = .ok ps) :
    ∃ pc n more, piece code stop g gs = .ok (pc, n) ∧
      pieces stop (codeAfter code g pc) 0 (gs.drop n) = .ok more ∧ ps = pc :: more := by
  rw [pieces] at h
  cases hpiece : piece code stop g gs with
  | error f => rw [hpiece] at h; cases h
  | ok x =>
    obtain ⟨pc, n⟩ := x
    rw [hpiece] at h
    dsimp only at h
    rw [pieces_skip] at h
    cases hmore : pieces stop (codeAfter code g pc) 0 (gs.drop n) with
    | error e => rw [hmore] at h; cases h
    | ok more =>
      rw [hmore] at h
      cases h
      exact ⟨pc, n, more, rfl, hmore, rfl⟩

theorem comment_pos (h : comment gs = .ok (text, n)) : 0 < n := by
  unfold comment at h
  split at h
  · split at h <;> cases h
    exact Nat.succ_pos _
  · cases h
    exact Nat.succ_pos _

theorem piece_cases {pc : Piece} (h : piece code stop g gs = .ok (pc, n)) :
    pc = .blank ∧ n = 0 ∧ (g.char = '\n' ∨ isBlank g.char = true) ∨
      (∃ text, pc = .comment ⟨text, ⟨g.range.start, Glyph.startOf (gs.drop n) stop⟩, code⟩ ∧
        Glyph.startsWith ['-', '-'] (g :: gs) = true ∧ comment (g :: gs) = .ok (text, n + 1)) ∨
      ∃ kind, pc = .token ⟨kind, ⟨g.range.start, Glyph.startOf (gs.drop n) stop⟩⟩ ∧
        token g gs = .ok (kind, n + 1) := by
  unfold piece at h
  split at h
  · rename_i hblank
    cases h
    rw [or_eq_true, beq_iff_eq] at hblank
    exact .inl ⟨rfl, rfl, hblank⟩
  · split at h
    · rename_i hdashes
      cases hc : comment (g :: gs) with
      | error f => rw [hc] at h; cases h
      | ok x =>
        obtain ⟨text, m⟩ := x
        rw [hc] at h
        cases h
        obtain ⟨m, rfl⟩ := Nat.exists_eq_succ_of_ne_zero (Nat.ne_of_gt (comment_pos hc))
        exact .inr (.inl ⟨text, rfl, hdashes, rfl⟩)
    · cases ht : token g gs with
      | error f => rw [ht] at h; cases h
      | ok x =>
        obtain ⟨kind, m⟩ := x
        rw [ht] at h
        cases h
        obtain ⟨m, rfl⟩ := Nat.exists_eq_succ_of_ne_zero (Nat.ne_of_gt (token_pos ht))
        exact .inr (.inr ⟨kind, rfl, rfl⟩)

end Lexer

end LuaAnalysis
