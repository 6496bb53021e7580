import LuaAnalysis.Proofs.Token.Lossless

/-!
# Comments behind code

A comment is marked as trailing if code stands before it on its line. The lexer keeps this in one
flag, which a token sets and a line end takes back, also a line end inside a token. So the flag says
that a token *starts* on the line before the comment; a string that began on an earlier line and
ends before the comment is missed (`trailing_iff`).
-/

namespace LuaAnalysis

open Lexer

variable {p : Position} {code : Bool} {cs : List Char} {ps : List Lexer.Piece}

namespace Lexer

/-! ## The flag from piece to piece -/

theorem Cut.marked_iff (h : Cut p code cs ps) {c : Comment}
    (hc : .inr c ∈ ps.filterMap Piece.mark?) :
    c.trailing = true ↔ code = true ∧ c.range.start.line = p.line ∨
      ∃ t, .inl t ∈ ps.filterMap Piece.mark? ∧ t.range.Before c.range ∧
        t.range.start.line = c.range.start.line := by
  induction h with
  | nil => cases hc
  | @cons p q code _ _ pc ps hne hleads hpiece hflag hrest ih =>
    have hlt := hleads.lt hne
    have hrange := hpiece.range
    simp only [mem_marks_cons] at hc ⊢
    rcases hc with hc | hc
    · -- The comment comes first, and no token stands before it.
      have hstart : c.range.start = p := congrArg TextRange.start (hrange _ hc)
      obtain rfl : pc = .comment c := by
        cases pc <;> cases hc
        rfl
      have hnone : ∀ t : Token, .inl t ∈ ps.filterMap Piece.mark? → ¬ t.range.Before c.range :=
        fun t ht hbefore => by
        have hfrom : q ≤ t.range.start := hrest.le_start _ ht
        have hto : t.range.start ≤ p :=
          hstart ▸ Position.le_trans (Position.le_of_lt (hrest.start_lt_stop _ ht)) hbefore
        exact Position.lt_irrefl (Position.lt_of_lt_of_le hlt (Position.le_trans hfrom hto))
      rw [hflag c rfl, hstart]
      constructor
      · exact fun hcode => .inl ⟨hcode, rfl⟩
      · rintro (⟨hcode, -⟩ | ⟨t, ht | ht, hbefore, -⟩)
        · exact hcode
        · cases ht
        · exact absurd hbefore (hnone t ht)
    · have hfrom : q ≤ c.range.start := hrest.le_start _ hc
      have hle := Position.le_trans (Position.le_of_lt hlt) hfrom
      rw [Position.le_iff] at hfrom hle
      rw [Position.lt_iff] at hlt
      rw [ih hc]
      constructor
      · rintro (⟨hcode, hline⟩ | ⟨t, ht, htc⟩)
        · rw [Bool.and_eq_true, Bool.or_eq_true, beq_iff_eq] at hcode
          rcases hcode.1 with hcode' | htoken
          · exact .inl ⟨hcode', hline.trans hcode.2.symm⟩
          · obtain ⟨t, ht⟩ := Option.isSome_iff_exists.1 htoken
            obtain rfl : pc = .token t := by
              cases pc <;> cases ht
              rfl
            have htrange : t.range = ⟨p, q⟩ := hrange (.inl t) rfl
            refine .inr ⟨t, .inl rfl, ?_, ?_⟩
            · rw [TextRange.Before, htrange]
              exact hrest.le_start _ hc
            · rw [htrange, hline]
              exact hcode.2
        · exact .inr ⟨t, .inr ht, htc⟩
      · rintro (⟨hcode, hline⟩ | ⟨t, ht | ht, hbefore, hline⟩)
        · refine .inl ⟨?_, ?_⟩
          · rw [hcode, Bool.true_or, Bool.true_and, beq_iff_eq]
            omega
          · omega
        · have htrange : t.range = ⟨p, q⟩ := hrange (.inl t) ht
          have htoken : pc.token?.isSome = true := by
            cases pc <;> cases ht
            rfl
          rw [htrange] at hline
          refine .inl ⟨?_, ?_⟩
          · rw [htoken, Bool.or_true, Bool.true_and, beq_iff_eq]
            simp only at hline
            omega
          · simp only at hline
            omega
        · exact .inr ⟨t, ht, hbefore, hline⟩

theorem marks_of_tokenize {text : String} {lexed : Lexed} (h : tokenize text = .ok lexed) :
    ∃ p cs ps, Cut p false cs ps ∧ (∀ t, t ∈ lexed.tokens ↔ .inl t ∈ ps.filterMap Piece.mark?) ∧
      lexed.comments = (ps.filterMap Piece.mark?).filterMap Sum.getRight? := by
  obtain ⟨-, cs, p, ps, -, -, -, hcut, rfl⟩ := cut_of_tokenize h
  refine ⟨p, cs, ps, hcut, fun t => ?_, (filterMap_marks ps).2.symm⟩
  rw [← mem_getLeft?_iff, (filterMap_marks ps).1]

end Lexer

section Comments

variable {text : String} {lexed : Lexed} (h : tokenize text = .ok lexed)
include h

theorem forward_comments : ∀ c ∈ lexed.comments, c.range.start ≤ c.range.stop := by
  obtain ⟨p, cs, ps, hcut, -, hcomments⟩ := marks_of_tokenize h
  intro c hc
  rw [hcomments, mem_getRight?_iff] at hc
  exact Position.le_of_lt (hcut.start_lt_stop _ hc)

theorem pairwise_comments : lexed.comments.Pairwise fun c d => c.range.Before d.range := by
  obtain ⟨p, cs, ps, hcut, -, hcomments⟩ := marks_of_tokenize h
  rw [hcomments]
  refine List.Pairwise.filterMap Sum.getRight? ?_ hcut.pairwise
  intro m m' hbefore c hc d hd
  rw [Sum.getRight?_eq_some_iff] at hc hd
  subst hc hd
  exact hbefore

end Comments

/-! ## Tokens on the line of a comment -/

def Token.HasByteOn (t : Token) (line : Nat) : Prop :=
  ∃ column, t.range.start ≤ ⟨line, column⟩ ∧ (⟨line, column⟩ : Position) < t.range.stop

section Lexed

variable {text : String} {lexed : Lexed} (h : tokenize text = .ok lexed) {c : Comment}
  (hc : c ∈ lexed.comments)
include h hc

theorem trailing_iff_exists_start : c.trailing = true ↔
    ∃ t ∈ lexed.tokens, t.range.Before c.range ∧ t.range.start.line = c.range.start.line := by
  obtain ⟨p, cs, ps, hcut, htokens, hcomments⟩ := marks_of_tokenize h
  rw [hcomments, mem_getRight?_iff] at hc
  simp [hcut.marked_iff hc, htokens]

/-- What the mark of a comment says: some token starts on its line before it. If the mark is
missing, the tokens that have a byte there are those that start on an earlier line; so the mark says
that code stands before the comment, unless the only code there belongs to such tokens. -/
theorem trailing_iff :
    (c.trailing = true ↔ ∃ t ∈ lexed.tokens, t.range.Before c.range ∧
      t.range.start.line = c.range.start.line) ∧
    ((c.trailing = true ↔ ∃ t ∈ lexed.tokens, t.range.Before c.range ∧
      t.HasByteOn c.range.start.line) ↔
      c.trailing = true ∨ ∀ t ∈ lexed.tokens, t.range.Before c.range →
      t.range.start.line < c.range.start.line →
        ¬ t.HasByteOn c.range.start.line) := by
  have hstart := trailing_iff_exists_start h hc
  have hbyte : ∀ t ∈ lexed.tokens, t.range.start.line = c.range.start.line →
      t.HasByteOn c.range.start.line := by
    obtain ⟨p, cs, ps, hcut, htokens, -⟩ := marks_of_tokenize h
    intro t ht hline
    rw [htokens] at ht
    rw [← hline]
    exact ⟨t.range.start.column, Position.le_refl _, hcut.start_lt_stop _ ht⟩
  have hbound : ∀ t : Token, t.HasByteOn c.range.start.line →
      t.range.start.line ≤ c.range.start.line := by
    rintro t ⟨column, hle, -⟩
    rw [Position.le_iff] at hle
    simp only at hle
    omega
  refine ⟨hstart, ?_⟩
  cases hflag : c.trailing with
  | true =>
    rw [hflag] at hstart
    obtain ⟨t, ht, hbefore, hline⟩ := hstart.1 rfl
    exact iff_of_true (iff_of_true rfl ⟨t, ht, hbefore, hbyte t ht hline⟩) (.inl rfl)
  | false =>
    rw [hflag] at hstart
    have hearlier : ∀ t ∈ lexed.tokens, t.range.Before c.range →
      t.range.start.line ≠ c.range.start.line :=
      fun t ht hbefore hline => absurd (hstart.2 ⟨t, ht, hbefore, hline⟩) Bool.false_ne_true
    simp only [Bool.false_eq_true, false_iff, false_or, not_exists, not_and]
    constructor
    · exact fun hnone t ht hbefore _ => hnone t ht hbefore
    · intro hnone t ht hbefore hon
      exact hnone t ht hbefore (Nat.lt_of_le_of_ne (hbound t hon) (hearlier t ht hbefore)) hon

end Lexed

/-- A comment behind a token, one behind the end of a long string, and one that stands alone. -/
def markedText : String :=
  "local s = 1 -- one\ns = [[\n]] -- two\n-- three\n"

theorem trailing_iff_markedText : ∃ lexed, tokenize markedText = .ok lexed ∧
    ∃ c ∈ lexed.comments, c.text = " one" ∧
    (c.trailing = true ↔ ∃ t ∈ lexed.tokens, t.range.Before c.range ∧
      t.range.start.line = c.range.start.line) := by
  have hread : ∃ lexed ∈ (tokenize markedText).toOption, ∃ c ∈ lexed.comments, c.text = " one" := by
    decide +kernel
  obtain ⟨lexed, hlexed, c, hc, htext⟩ := hread
  have hok := eq_ok_of_toOption hlexed
  exact ⟨lexed, hok, c, hc, htext, (trailing_iff hok hc).1⟩

/-- The second comment stands behind the end of a string and is not marked. -/
theorem not_trailing_markedText :
    ∃ lexed ∈ (tokenize markedText).toOption, ∃ c ∈ lexed.comments, c.trailing = false ∧
    ∃ t ∈ lexed.tokens, t.range.Before c.range ∧ t.HasByteOn c.range.start.line := by
  have hread : ∃ lexed ∈ (tokenize markedText).toOption, ∃ c ∈ lexed.comments, c.trailing = false ∧
      ∃ t ∈ lexed.tokens, t.range.Before c.range ∧ t.range.start ≤ ⟨c.range.start.line, 0⟩ ∧
        (⟨c.range.start.line, 0⟩ : Position) < t.range.stop := by
    decide +kernel
  obtain ⟨lexed, hlexed, c, hc, hflag, t, ht, hbefore, hbyte⟩ := hread
  exact ⟨lexed, hlexed, c, hc, hflag, t, ht, hbefore, 0, hbyte⟩

end LuaAnalysis
