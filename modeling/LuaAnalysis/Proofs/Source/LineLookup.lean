import LuaAnalysis.Proofs.Text.Lines
import LuaAnalysis.Proofs.Token.Lossless

/-!
# Looking up the line of a position

Positions count four line ends, and lines are cut at line feeds alone. So the line that is looked up
for a token is the one the token stands on if and only if every line end in front of it has a line
feed and the last one ends with it (`FeedsLines`, `Leads.agrees_iff`). A carriage return alone makes
the numbers of lines run ahead (`line?_behind_return`), and behind `\n\r` the columns of one line
are too small by one.
-/

namespace LuaAnalysis

open List Utf8

namespace Glyph

open Text

variable {p q : Position} {pre post mid rest cs : List Char} {c d : Char}

/-! ## Line ends -/

/-- The line ends of a text as positions count them. -/
def lineEnds : List Char → List (List Char)
  | [] => []
  | [c] => if isLineEnd c then [[c]] else []
  | c :: d :: cs =>
    if joins c d then [c, d] :: lineEnds cs
    else if isLineEnd c then [c] :: lineEnds (d :: cs)
    else lineEnds (d :: cs)

/-- Every line end has a line feed, and the last one ends with it. -/
structure FeedsLines (cs : List Char) : Prop where
  each : ∀ e ∈ lineEnds cs, '\n' ∈ e
  last : ∀ c ∈ (cs.filter isLineEnd).getLast?, c = '\n'

theorem lineEnds_char (hc : isLineEnd c = false) : lineEnds (c :: cs) = lineEnds cs := by
  cases cs with
  | nil => simp [lineEnds, hc]
  | cons d cs =>
    have hjoin : joins c d = false := by rw [joins, hc, Bool.false_and, Bool.false_and]
    rw [lineEnds, hjoin, hc, if_neg Bool.false_ne_true, if_neg Bool.false_ne_true]

theorem lineEnds_line (hc : isLineEnd c = true) (hnext : ∀ d ∈ cs.head?, joins c d = false) :
    lineEnds (c :: cs) = [c] :: lineEnds cs := by
  cases cs with
  | nil => simp [lineEnds, hc]
  | cons d cs => rw [lineEnds, hnext d rfl, if_neg Bool.false_ne_true, if_pos hc]

theorem joins_cases (h : joins c d = true) : c = '\n' ∧ d = '\r' ∨ c = '\r' ∧ d = '\n' := by
  simp only [joins, isLineEnd, Bool.and_eq_true, Bool.or_eq_true, beq_iff_eq, bne_iff_ne] at h
  grind

/-- Positions count line ends, and no line end has more than one line feed. -/
theorem Leads.count_lineEnds (h : Leads p pre post q) : q.line = p.line + (lineEnds pre).length ∧
      pre.count '\n' ≤ (lineEnds pre).length ∧
      (pre.count '\n' = (lineEnds pre).length ↔ ∀ e ∈ lineEnds pre, '\n' ∈ e) := by
  induction h with
  | nil => simp [lineEnds]
  | @char p q c pre post hc _ ih =>
    have hne : c ≠ '\n' := by
      rintro rfl
      cases hc
    rw [lineEnds_char hc, count_cons_of_ne hne]
    exact ih
  | @pair p q c d pre post hjoin _ ih =>
    obtain ⟨hline, hle, hiff⟩ := ih
    have hcount : (c :: d :: pre).count '\n' = pre.count '\n' + 1 := by
      rcases joins_cases hjoin with ⟨rfl, rfl⟩ | ⟨rfl, rfl⟩ <;> simp
    have hmem : '\n' ∈ [c, d] := by
      rcases joins_cases hjoin with ⟨rfl, rfl⟩ | ⟨rfl, rfl⟩ <;> simp
    rw [lineEnds, if_pos hjoin, hcount, length_cons, forall_mem_cons, ← hiff,
      and_iff_right hmem, hline]
    simp only [Position.nextLine]
    omega
  | @line p q c pre post hc hnext _ ih =>
    obtain ⟨hline, hle, hiff⟩ := ih
    rw [lineEnds_line hc fun d hd => hnext d (by rw [head?_append, hd]; rfl), length_cons,
      forall_mem_cons, ← hiff, hline, mem_singleton]
    have hnextLine : p.nextLine.line = p.line + 1 := rfl
    by_cases heq : c = '\n'
    · rw [heq, count_cons_self]
      exact ⟨by omega, by omega, by simp⟩
    · rw [count_cons_of_ne heq]
      exact ⟨by omega, by omega, iff_of_false (by omega) fun h => heq h.1.symm⟩

/-- What stands on the line of a position in front of it. -/
theorem Leads.exists_last (h : Leads p pre post q) : ∃ front last, pre = front ++ last ∧
      (∀ c ∈ last, isLineEnd c = false) ∧ (∀ c ∈ front.getLast?, isLineEnd c = true) ∧
      q.column = (if front = [] then p.column else 0) + (encode last).length := by
  induction h with
  | nil p => exact ⟨[], [], rfl, nofun, nofun, rfl⟩
  | @char p q c pre post hc _ ih =>
    obtain ⟨front, last, rfl, hlast, hfront, hcolumn⟩ := ih
    cases front with
    | nil =>
      refine ⟨[], c :: last, rfl, forall_mem_cons.2 ⟨hc, hlast⟩, nofun, ?_⟩
      rw [hcolumn, encode_cons, length_append, String.length_utf8EncodeChar]
      exact Nat.add_assoc _ _ _
    | cons d front =>
      exact ⟨c :: d :: front, last, rfl, hlast, by rwa [getLast?_cons_cons], hcolumn⟩
  | @pair p q c d pre post hjoin _ ih =>
    obtain ⟨front, last, rfl, hlast, hfront, hcolumn⟩ := ih
    refine ⟨c :: d :: front, last, rfl, hlast, ?_, by simpa [Position.nextLine] using hcolumn⟩
    cases front with
    | nil =>
      rintro _ ⟨⟩
      rcases joins_cases hjoin with ⟨-, rfl⟩ | ⟨-, rfl⟩ <;> rfl
    | cons e front => rwa [getLast?_cons_cons, getLast?_cons_cons]
  | @line p q c pre post hc hnext _ ih =>
    obtain ⟨front, last, rfl, hlast, hfront, hcolumn⟩ := ih
    refine ⟨c :: front, last, rfl, hlast, ?_, by simpa [Position.nextLine] using hcolumn⟩
    cases front with
    | nil =>
      rintro _ ⟨⟩
      exact hc
    | cons e front => rwa [getLast?_cons_cons]

theorem Leads.plain (h : Leads p pre post q) (hline : p.line = q.line) :
    (∀ c ∈ pre, isLineEnd c = false) ∧ q.column = p.column + (encode pre).length := by
  have hnext : ¬ p.nextLine ≤ q := by
    simp only [Position.le_iff, Position.nextLine]
    omega
  induction h with
  | nil => exact ⟨by simp, rfl⟩
  | @char p q c pre post hc h ih =>
    obtain ⟨hplain, hcolumn⟩ := ih hline hnext
    refine ⟨forall_mem_cons.2 ⟨hc, hplain⟩, ?_⟩
    rw [hcolumn, encode_cons, length_append, String.length_utf8EncodeChar]
    exact Nat.add_assoc _ _ _
  | pair _ h _ => exact absurd h.le hnext
  | line _ _ h _ => exact absurd h.le hnext

theorem getLast?_filter_isLineEnd {front last : List Char} (hlast : ∀ c ∈ last, isLineEnd c = false)
    (hfront : ∀ c ∈ front.getLast?, isLineEnd c = true) :
    ((front ++ last).filter isLineEnd).getLast? = front.getLast? := by
  have hnone : last.filter isLineEnd = [] :=
    filter_eq_nil_iff.2 fun c hc => by rw [hlast c hc]; exact Bool.false_ne_true
  rw [filter_append, hnone, append_nil]
  rcases eq_nil_or_concat front with rfl | ⟨more, c, rfl⟩
  · rfl
  · rw [concat_eq_append, filter_append, filter_cons_of_pos (hfront c (by simp)), filter_nil,
      getLast?_concat, getLast?_concat]

/-! ## Lines that agree -/

/-- Where positions count as lines are cut, the line of a position begins with what stands in front
of it there. -/
theorem Leads.lineAt (h : Leads {} pre (mid ++ rest) q) (hfeeds : FeedsLines pre)
    (hmid : '\n' ∉ mid) (hrest : ∀ c ∈ rest.head?, c = '\n')
    (hpresent : q.column ≠ 0 ∨ mid ++ rest ≠ []) :
    ∃ front last, pre = front ++ last ∧ (∀ c ∈ last, isLineEnd c = false) ∧
      q.column = (encode last).length ∧
      LineAt q.line front (last ++ mid) rest := by
  obtain ⟨hline, -, hcount⟩ := h.count_lineEnds
  obtain ⟨front, last, rfl, hlast, hfront, hcolumn⟩ := h.exists_last
  rw [ite_self, Nat.zero_add] at hcolumn
  have hplain : '\n' ∉ last := fun hmem => absurd (hlast _ hmem) (by decide)
  refine ⟨front, last, rfl, hlast, hcolumn, ?_, fun c hc => ?_, ?_, hrest, ?_⟩
  · rw [hline, ← hcount.2 hfeeds.each, count_append, count_eq_zero_of_not_mem hplain]
    exact (Nat.zero_add _).symm
  · exact hfeeds.last c (by rwa [getLast?_filter_isLineEnd hlast hfront])
  · rw [mem_append, not_or]
    exact ⟨hplain, hmid⟩
  · rintro hnil
    rw [append_assoc] at hnil
    obtain ⟨rfl, hnil⟩ := append_eq_nil_iff.1 hnil
    exact hpresent.elim (fun hne => hne hcolumn) fun hne => hne hnil

theorem Leads.agrees_iff (h : Leads {} pre post q) :
    (∃ a b, (lineRanges 0 0 (pre ++ post))[q.line]? = some (a, b) ∧
      a + q.column = (encode pre).length) ↔ FeedsLines pre ∧ (q.column ≠ 0 ∨ post ≠ []) := by
  constructor
  · rintro ⟨a, b, hrange, hplace⟩
    obtain ⟨hline, -, hcount⟩ := h.count_lineEnds
    obtain ⟨front, last, rfl, hlast, hfront, hcolumn⟩ := h.exists_last
    obtain ⟨before, line, rest, heq, hat, rfl, -⟩ := exists_lineAt hrange
    have hplain : '\n' ∉ last := fun hmem => absurd (hlast _ hmem) (by decide)
    rw [ite_self, Nat.zero_add] at hcolumn
    rw [hcolumn, encode_append, length_append, Nat.zero_add, Nat.add_right_cancel_iff] at hplace
    rw [append_assoc] at heq
    obtain rfl := eq_of_append_eq heq.symm hplace
    refine ⟨⟨hcount.1 ?_, ?_⟩, ?_⟩
    · rw [count_append, count_eq_zero_of_not_mem hplain, hat.number, hline]
      exact Nat.zero_add _
    · rw [getLast?_filter_isLineEnd hlast hfront]
      exact hat.starts
    · rw [hcolumn]
      refine or_iff_not_imp_right.2 fun hpost hlength => hat.present ?_
      rw [not_not] at hpost
      rw [← append_cancel_left heq, hpost, append_nil]
      exact length_encode_eq_zero.1 hlength
  · rintro ⟨hfeeds, hpresent⟩
    obtain ⟨mid, rest, rfl, hmid, hrest⟩ := exists_firstLine post
    obtain ⟨front, last, rfl, -, hcolumn, hat⟩ := h.lineAt hfeeds hmid hrest hpresent
    have hrange := hat.getElem?_lineRanges 0
    rw [Nat.zero_add] at hrange
    rw [append_assoc, ← append_assoc last, hrange, hcolumn]
    exact ⟨_, _, rfl, by rw [encode_append, length_append]⟩

end Glyph

namespace Source

variable {text : String} {lexed : Lexed}

/-- Where the line that is looked up is the line of the token. A token that starts and ends on one
line stands between `before` and `behind`. If and only if every line end in `before` has a line feed
and the last one ends with it, the range of the line with the number of the token's line has the
token at its columns; and then that line has the bytes of the token between the columns. The end of
a text has a line if moreover it does not stand at the start of a line. -/
theorem line?_token_iff (h : tokenize text = .ok lexed) :
    (∀ t ∈ lexed.tokens, t.range.start.line = t.range.stop.line → ∃ before under behind,
      text.toList = before ++ (under ++ behind) ∧
      t.range.Splits (encode text.toList) (encode before) (encode under) (encode behind) ∧
      ((∃ a b, (Text.lineRanges 0 0 text.toList)[t.range.start.line]? = some (a, b) ∧
        a + t.range.start.column = (encode before).length ∧ a + t.range.stop.column ≤ b) ↔
          Glyph.FeedsLines before) ∧
      (Glyph.FeedsLines before → ∃ line, (parse text).line? t.range.start.line = some line ∧
        (encode line.toList).extract t.range.start.column t.range.stop.column = encode under)) ∧
    ((∃ a b, (Text.lineRanges 0 0 text.toList)[lexed.stop.line]? = some (a, b) ∧
      a + lexed.stop.column = (encode text.toList).length) ↔
        Glyph.FeedsLines text.toList ∧ lexed.stop.column ≠ 0) := by
  obtain ⟨pre, cs, q, ps, htext, hpre, -, hcut, rfl⟩ := Lexer.cut_of_tokenize h
  refine ⟨fun t ht hline => ?_, ?_⟩
  · rw [← (Lexer.filterMap_marks ps).1, Lexer.mem_getLeft?_iff] at ht
    obtain ⟨-, before, under, behind, -, hplace, hne, hbefore, hunder, -⟩ :=
      hcut.exists_piece hpre ht
    rw [← htext] at hplace
    rw [Mark.range_inl] at hbefore hunder
    refine ⟨before, under, behind, hplace, hplace ▸ .of_leads hbefore hunder, ?_⟩
    obtain ⟨hplain, hcolumn⟩ := hunder.plain hline
    obtain ⟨more, rest, rfl, hmore, hrest⟩ := Text.exists_firstLine behind
    -- The line goes on at least to the end of the token.
    have hfound : Glyph.FeedsLines before → ∃ front last, before = front ++ last ∧
      (∀ c ∈ last, Glyph.isLineEnd c = false) ∧
        t.range.start.column = (encode last).length ∧
        Text.LineAt t.range.start.line front (last ++ (under ++ more)) rest := by
      intro hfeeds
      rw [← append_assoc] at hbefore
      refine hbefore.lineAt hfeeds ?_ hrest (.inr (by simp [hne]))
      rw [mem_append, not_or]
      exact ⟨fun hmem => absurd (hplain _ hmem) (by decide), hmore⟩
    refine ⟨⟨?_, fun hfeeds => ?_⟩, fun hfeeds => ?_⟩
    · rintro ⟨a, b, hrange, hstart, -⟩
      exact (hbefore.agrees_iff.1 ⟨a, b, hplace ▸ hrange, hstart⟩).1
    · obtain ⟨front, last, rfl, -, hstart, hat⟩ := hfound hfeeds
      have hrange := hat.getElem?_lineRanges 0
      have hwhole : text.toList = front ++ ((last ++ (under ++ more)) ++ rest) := by
        simpa using hplace
      rw [Nat.zero_add, ← hwhole] at hrange
      refine ⟨_, _, hrange, ?_, ?_⟩
      · rw [hstart, encode_append, length_append]
      · rw [hcolumn, encode_append, encode_append, length_append, length_append]
        omega
    · obtain ⟨front, last, rfl, -, hstart, hat⟩ := hfound hfeeds
      refine ⟨String.ofList (last ++ (under ++ more)), ?_, ?_⟩
      · rw [line?, text_parse]
        exact hat.line?_eq (by simpa using hplace)
      · rw [hcolumn, hstart, String.toList_ofList, encode_append, encode_append,
          extract_eq_take_drop, drop_left, Nat.add_sub_cancel_left, take_left]
  · have hend := (Glyph.leads_endOf {} text.toList).agrees_iff
    rw [append_nil] at hend
    rw [Glyph.ofText, hend, or_iff_left (fun hne => hne rfl)]

/-- A text whose line ends are carriage returns with line feeds behind them. -/
def returnedText : String :=
  "local s = 'é'\r\nreturn s\r\n"

theorem line?_token_iff_returnedText : ∃ lexed, tokenize returnedText = .ok lexed ∧
    ∃ t ∈ lexed.tokens, t.range = ⟨⟨1, 0⟩, ⟨1, 6⟩⟩ ∧
      ∃ before under behind, returnedText.toList = before ++ (under ++ behind) ∧
        Glyph.FeedsLines before ∧ ∃ line, (parse returnedText).line? 1 = some line ∧
          (encode line.toList).extract 0 6 = encode under := by
  have hread : ∃ lexed ∈ (tokenize returnedText).toOption, ∃ t ∈ lexed.tokens,
      t.range = ⟨⟨1, 0⟩, ⟨1, 6⟩⟩ := by
    decide +kernel
  obtain ⟨lexed, hlexed, t, ht, hrange⟩ := hread
  have hok := eq_ok_of_toOption hlexed
  obtain ⟨before, under, behind, htext, hsplits, hagrees, hfound⟩ :=
    (line?_token_iff hok).1 t ht (by rw [hrange])
  rw [hrange] at hsplits hagrees hfound
  have hoffset : (⟨1, 0⟩ : Position).offset? (encode returnedText.toList) = some 16 := by
    decide +kernel
  have hlength : 16 = (encode before).length := Option.some.inj (hoffset.symm.trans hsplits.start)
  have hline : (Text.lineRanges 0 0 returnedText.toList)[1]? = some (16, 25) := by decide +kernel
  have hfeeds : Glyph.FeedsLines before := hagrees.1 ⟨16, 25, hline, hlength, by decide⟩
  exact ⟨lexed, hok, t, ht, hrange, before, under, behind, htext, hfeeds, hfound hfeeds⟩

/-- Behind a carriage return alone the line of a token has no text, and behind `\n\r` the columns of
a token are those of the byte in front. -/
theorem line?_behind_return :
    (∃ lexed ∈ (tokenize "\rlocal x = 1\n").toOption, ∃ t ∈ lexed.tokens,
      t.range = ⟨⟨1, 0⟩, ⟨1, 5⟩⟩ ∧
      (parse "\rlocal x = 1\n").line? 1 = none) ∧
    ∃ lexed ∈ (tokenize "\n\rlocal x = 1\n").toOption, ∃ t ∈ lexed.tokens,
      t.range = ⟨⟨1, 0⟩, ⟨1, 5⟩⟩ ∧
      ∃ line ∈ (parse "\n\rlocal x = 1\n").line? 1,
        (encode line.toList).extract 0 5 = encode "\rloca".toList := by
  decide +kernel

end Source

end LuaAnalysis
