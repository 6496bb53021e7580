import LuaAnalysis.Proofs.Text.Offset
import LuaAnalysis.Proofs.Token.Spacing

/-!
# Nothing of a text is lost

The lexer cuts a text into pieces one after another (`Cut`), each of which is spelled by the
characters that it covers. So the tokens and comments of a text, in the order of the text, lead back
to its bytes: what a name, a keyword or a symbol covers is its text, what a comment to the end of
the line covers is its two dashes and its text, and what nothing covers is blank, ends a line, or
belongs to a first line that starts with `#` (`tokenize_lossless`).
-/

namespace LuaAnalysis

open Glyph Lexer

open List Utf8

/-! ## Tokens and comments among bytes -/

namespace Utf8

def isBlank (b : UInt8) : Bool :=
  b == 32 || b == 9 || b == 11 || b == 12

def opensLong : List UInt8 → Bool
  | [] => false
  | b :: bytes => b == 91 && (bytes.dropWhile (· == 61)).head? == some 91

end Utf8

/-- What is written in a text besides blanks. -/
abbrev Mark := Token ⊕ Comment

namespace Mark

def range : Mark → TextRange :=
  Sum.elim Token.range Comment.range

theorem range_inl {t : Token} : range (.inl t) = t.range :=
  rfl

theorem range_inr {c : Comment} : range (.inr c) = c.range :=
  rfl

def Spelled (under behind : List UInt8) : Mark → Prop
  | .inl t => ∀ text ∈ t.kind.spelling?, under = encode text.toList
  | .inr c => ∃ rest, under = 45 :: 45 :: rest ∧
      (opensLong rest = false → rest = encode c.text.toList ∧
        (∀ b ∈ rest, isLineEnd b = false) ∧ ∀ b ∈ behind.head?, isLineEnd b = true)

def Covers (bytes : List UInt8) (i : Nat) (m : Mark) : Prop :=
  ∃ start stop, m.range.start.offset? bytes = some start ∧ m.range.stop.offset? bytes = some stop ∧
    start ≤ i ∧ i < stop

end Mark

structure TextRange.Splits (r : TextRange) (bytes before under behind : List UInt8) : Prop where
  eq : bytes = before ++ (under ++ behind)
  start : r.start.offset? bytes = some before.length
  stop : r.stop.offset? bytes = some (before.length + under.length)

theorem TextRange.Splits.of_leads {range : TextRange} {before under behind : List Char}
    (hbefore : Glyph.Leads {} before (under ++ behind) range.start)
    (hunder : Glyph.Leads range.start under behind range.stop) :
    range.Splits (encode (before ++ (under ++ behind))) (encode before) (encode under)
      (encode behind) where
  eq := by rw [encode_append, encode_append]
  start := hbefore.offset?_eq
  stop := by rw [← append_assoc, (hbefore.trans hunder).offset?_eq, encode_append, length_append]

/-- Tokens and comments in the order of a text that ends at `stop`, from which its bytes can be
told. -/
structure Lossless (bytes : List UInt8) (row : List Mark) (stop : Position) : Prop where
  forward : ∀ m ∈ row, m.range.start ≤ m.range.stop
  increasing : row.Pairwise fun m n => m.range.Before n.range
  inside : ∀ m ∈ row, m.range.stop ≤ stop
  stop : stop.offset? bytes = some bytes.length
  spelled : ∀ m ∈ row, ∃ before under behind, m.range.Splits bytes before under behind ∧
    m.Spelled under behind
  between : ∀ i b, bytes[i]? = some b → (∀ m ∈ row, ¬ m.Covers bytes i) →
    Utf8.isBlank b = true ∨ Utf8.isLineEnd b = true ∨
      bytes[0]? = some 35 ∧ ∀ j ≤ i, ∀ b' ∈ bytes[j]?, Utf8.isLineEnd b' = false

/-! ## What scanners take -/

variable {gs : List Glyph} {text : String} {q : Position} {cs post : List Char}
variable {level n : Nat} {pc : Piece} {r : Position}

namespace Glyph

theorem chars_take_takeWhile (p : Char → Bool) (gs : List Glyph) :
    chars (gs.take (takeWhile p gs).length) = takeWhile p gs := by
  induction gs with
  | nil => rfl
  | cons g gs ih =>
    rw [takeWhile]
    split
    · rw [length_cons, take_succ_cons, chars_cons, ih]
    · rfl

theorem chars_take : chars (gs.take n) = (chars gs).take n :=
  map_take

theorem chars_drop : chars (gs.drop n) = (chars gs).drop n :=
  map_drop

theorem of_mem_takeWhile {p : Char → Bool} {c : Char} (h : c ∈ takeWhile p gs) : p c = true := by
  induction gs with
  | nil => cases h
  | cons g gs ih =>
    rw [takeWhile] at h
    split at h
    · rename_i hg
      rcases mem_cons.1 h with rfl | h
      · exact hg
      · exact ih h
    · cases h

theorem startsWith_iff {ws : List Char} : startsWith ws gs = true ↔ ws <+: chars gs := by
  induction ws generalizing gs with
  | nil => exact iff_of_true rfl nil_prefix
  | cons w ws ih =>
    cases gs with
    | nil => exact iff_of_false Bool.false_ne_true (fun h => nomatch prefix_nil.1 h)
    | cons g gs =>
      rw [startsWith, Bool.and_eq_true, beq_iff_eq, ih, chars_cons, cons_prefix_cons, eq_comm]

end Glyph

namespace Lexer

variable {g : Glyph} {gs : List Glyph} {kind : TokenKind} {n : Nat}

theorem text_of_ofText? {word : String} {k : Keyword} (h : Keyword.ofText? word = some k) :
    k.text = word := by
  have hfound := find?_some h
  simpa using hfound

theorem symbol_spelling (h : symbol gs = .ok (kind, n)) :
    ∃ s, kind = .symbol s ∧ chars (gs.take n) = s.text.toList := by
  unfold symbol at h
  split at h
  · rename_i s hs
    cases h
    have hbegins := find?_some hs
    rw [chars_take, isPrefixOf_iff_prefix] at hbegins
    have htake := prefix_iff_eq_take.1 (hbegins.trans ⟨_, take_append_drop 3 _⟩)
    exact ⟨s, rfl, by rw [chars_take, ← String.length_toList, ← htake]⟩
  · cases h

theorem not_mem_symbol {s : Symbol} : '\n' ∉ s.text.toList := by
  cases s <;> decide

theorem token_spelling (h : token g gs = .ok (kind, n)) (htext : text ∈ kind.spelling?) :
    chars ((g :: gs).take n) = text.toList ∧ '\n' ∉ text.toList := by
  rcases token_cases h with ⟨-, rfl, rfl⟩ | hsymbol | ⟨hnone, -⟩
  · have hspelling : text = String.ofList (takeWhile isNameChar (g :: gs)) := by
      unfold wordKind at htext
      split at htext
      · rename_i k hk
        cases htext
        exact text_of_ofText? hk
      · cases htext
        rfl
    rw [chars_take_takeWhile, hspelling, String.toList_ofList]
    exact ⟨rfl, fun hmem => absurd (of_mem_takeWhile hmem) (by decide)⟩
  · obtain ⟨s, rfl, htake⟩ := symbol_spelling hsymbol
    cases htext
    exact ⟨htake, not_mem_symbol⟩
  · rw [hnone] at htext
    cases htext

theorem token_name (h : token g gs = .ok (kind, n)) (hkind : kind.isName = true) :
    isNameStart g.char = true ∧ ∀ g' ∈ ((g :: gs).drop n).head?, isNameChar g'.char = false := by
  rcases token_cases h with ⟨hstart, -, rfl⟩ | hsymbol | ⟨hnone, -⟩
  · exact ⟨hstart, fun _ => not_of_drop_takeWhile⟩
  · obtain ⟨s, rfl, -⟩ := symbol_spelling hsymbol
    cases hkind
  · cases kind <;> cases hnone <;> cases hkind

def longOpen (level : Nat) : List Char :=
  '[' :: (List.replicate level '=' ++ ['['])

theorem length_longOpen : (longOpen level).length = level + 2 := by
  simp only [longOpen, length_cons, length_append, length_replicate, length_nil]

theorem longLevel?_spelling (h : longLevel? gs = some level) :
    longOpen level <+: Glyph.chars gs := by
  cases gs with
  | nil => cases h
  | cons g gs =>
    rw [longLevel?] at h
    split at h
    · rename_i hopen
      dsimp only at h
      split at h
      · rename_i hclose
        have hlevel : (takeWhile (· == '=') gs).length = level := Option.some.inj h
        have hsigns : takeWhile (· == '=') gs = List.replicate level '=' :=
          eq_replicate_iff.2 ⟨hlevel, fun c hc => by simpa using of_mem_takeWhile hc⟩
        have htake := chars_take_takeWhile (· == '=') gs
        rw [startsWith_iff, chars_drop, hlevel] at hclose
        rw [hlevel, chars_take, hsigns] at htake
        rw [longOpen, chars_cons, cons_prefix_cons]
        refine ⟨(beq_iff_eq.1 hopen).symm, ?_⟩
        rw [← take_append_drop level (chars gs), htake]
        exact (prefix_append_right_inj _).2 hclose
      · cases h
    · cases h

theorem comment_spelling (hdashes : Glyph.startsWith ['-', '-'] gs = true)
    (h : comment gs = .ok (text, n)) :
    (∃ level, '-' :: '-' :: longOpen level <+: chars (gs.take n)) ∨
      chars (gs.take n) = '-' :: '-' :: text.toList ∧ '\n' ∉ text.toList ∧
      ∀ g ∈ (gs.drop n).head?, g.char = '\n' := by
  rcases gs with - | ⟨a, - | ⟨b, gs⟩⟩
  · cases hdashes
  · simp [startsWith] at hdashes
  · obtain ⟨ha, hb⟩ : a.char = '-' ∧ b.char = '-' := by simpa [startsWith] using hdashes
    have hchars : ∀ m, chars ((a :: b :: gs).take (m + 2)) = '-' :: '-' :: (chars gs).take m := by
      intro m
      rw [take_succ_cons, take_succ_cons, chars_cons, chars_cons, ha, hb, chars_take]
    rw [comment, drop_succ_cons, drop_succ_cons, drop_zero] at h
    split at h
    · rename_i level hlevel
      split at h
      · rename_i m hbracket
        cases h
        refine .inl ⟨level, ?_⟩
        rw [hchars, cons_prefix_cons, cons_prefix_cons, prefix_take_iff]
        refine ⟨rfl, rfl, longLevel?_spelling hlevel, ?_⟩
        rw [length_longOpen]
        exact longBracket_le hbracket
      · cases h
    · cases h
      refine .inr ⟨?_, ?_, ?_⟩
      · rw [hchars, String.toList_ofList, ← chars_take, chars_take_takeWhile]
      · rw [String.toList_ofList]
        exact fun hmem => absurd (of_mem_takeWhile hmem) (by decide)
      · intro g hg
        rw [drop_succ_cons, drop_succ_cons] at hg
        simpa using not_of_drop_takeWhile hg

end Lexer

/-! ## Pieces of a text -/

namespace Lexer

def Piece.Spelled (q r : Position) (cs post : List Char) : Piece → Prop
  | .blank => ∀ c ∈ cs, isBlank c = true ∨ isLineEnd c = true
  | .token t => t.range = ⟨q, r⟩ ∧ (∀ text ∈ t.kind.spelling?, cs = text.toList) ∧
      (t.kind.isName = true → (∃ c ∈ cs.head?, isNameStart c = true) ∧
        ∀ c ∈ post.head?, isNameChar c = false)
  | .comment c => c.range = ⟨q, r⟩ ∧
      ((∃ level, '-' :: '-' :: longOpen level <+: cs) ∨
        cs = '-' :: '-' :: c.text.toList ∧ (∀ d ∈ c.text.toList, isLineEnd d = false) ∧
          ∀ d ∈ post.head?, isLineEnd d = true)

/-- A text that starts at a position is cut into pieces, one after another. The flag says whether a
token starts before that position on its line, and a comment is marked with the flag of its
place. -/
inductive Cut : Position → Bool → List Char → List Piece → Prop
  | nil (q : Position) (code : Bool) : Cut q code [] []
  | cons {q r : Position} {code : Bool} {cs post : List Char} {piece : Piece} {ps : List Piece}
      (hne : cs ≠ [])
      (hleads : Glyph.Leads q cs post r) (hpiece : piece.Spelled q r cs post)
      (hflag : ∀ c, piece = .comment c → c.trailing = code)
      (hrest : Cut r ((code || piece.token?.isSome) && q.line == r.line) post ps) :
      Cut q code (cs ++ post) (piece :: ps)

theorem isNameChar_glyph {c : Char} :
    isNameChar (if Glyph.isLineEnd c then '\n' else c) = isNameChar c := by
  split
  · rename_i hc
    rcases Bool.or_eq_true_iff.1 hc with hc | hc <;> rw [beq_iff_eq.1 hc] <;> rfl
  · rfl

theorem isNameStart_glyph {c : Char} :
    isNameStart (if Glyph.isLineEnd c then '\n' else c) = isNameStart c := by
  split
  · rename_i hc
    rcases Bool.or_eq_true_iff.1 hc with hc | hc <;> rw [beq_iff_eq.1 hc] <;> rfl
  · rfl

theorem exists_spelled {code : Bool} {c : Char} {g : Glyph}
    (hgs : Glyph.ofChars q (c :: cs) = g :: gs)
    (h : piece code (endOf q (g :: gs)) g gs = .ok (pc, n)) :
    ∃ taken post r, c :: cs = taken ++ post ∧ Glyph.Leads q taken post r ∧
      gs.drop n = ofChars r post ∧
      taken ≠ [] ∧ pc.Spelled q r taken post ∧ (∀ c, pc = .comment c → c.trailing = code) ∧
      codeAfter code g pc = ((code || pc.token?.isSome) && q.line == r.line) := by
  obtain ⟨taken, post, r, htext, hleads, htake, hdrop⟩ := exists_leads q (c :: cs) (n + 1)
  obtain ⟨_, more, q', g', -, -, -, hfirst, hq, hchar, hline⟩ := @exists_first c cs q
  obtain ⟨rfl, rfl⟩ : g' = g ∧ ofChars q' more = gs := List.cons.inj (hfirst.symm.trans hgs)
  rw [hgs] at htake hdrop
  have hstop : startOf ((ofChars q' more).drop n) (endOf q (g' :: ofChars q' more)) = r := by
    rw [← hgs, ← drop_succ_cons, hdrop, htext]
    exact hleads.startOf_eq
  have hrange : (⟨g'.range.start, startOf ((ofChars q' more).drop n)
      (endOf q (g' :: ofChars q' more))⟩ : TextRange) = ⟨q, r⟩ := by
    rw [hq, hstop]
  have hne : taken ≠ [] := by
    rintro rfl
    rw [ofChars_nil] at htake
    cases htake
  refine ⟨taken, post, r, htext, hleads, hdrop, hne, ?_⟩
  rcases piece_cases
    h with ⟨rfl, rfl, hblank⟩ | ⟨text, rfl, hdashes, hcomment⟩ | ⟨kind, rfl, htoken⟩
  · refine ⟨fun c hc => ?_, nofun, ?_⟩
    · rcases isLineEnd_or_mem_chars hc with hend | hmem
      · exact .inr hend
      · rw [← htake] at hmem
        obtain rfl : c = g'.char := mem_singleton.1 hmem
        rcases hblank with hline | hblank
        · exact .inr (by rw [hline]; rfl)
        · exact .inl hblank
    · obtain rfl : q' = r := by
        rw [← hstop, endOf_cons, hq, drop_zero]
        exact (Glyph.Leads.nil q' more).startOf_eq.symm
      rw [codeAfter, hline]
      exact congrArg (· && _) (Bool.or_false code).symm
  · refine ⟨⟨hrange, ?_⟩, fun _ hc => Piece.comment.inj hc ▸ rfl, ?_⟩
    · rcases comment_spelling hdashes hcomment with ⟨level, more, hmore⟩ | ⟨hchars, hline, hnext⟩
      · have hplain : '\n' ∉ '-' :: '-' :: longOpen level := by simp [longOpen]
        rw [htake] at hmore
        obtain ⟨rest, -, rfl, -⟩ := exists_of_chars_eq_append hplain hmore.symm
        exact .inl ⟨level, rest, rfl⟩
      · have hplain : '\n' ∉ '-' :: '-' :: text.toList := by simpa using hline
        rw [htake] at hchars
        refine .inr ⟨eq_of_chars_eq hplain hchars, fun d hd => ?_, isLineEnd_head (hdrop ▸ hnext)⟩
        have hmem : d ∈ chars (ofChars q taken) := hchars ▸ .tail _ (.tail _ hd)
        exact isLineEnd_of_mem_chars hmem fun heq => hline (heq ▸ hd)
    · rw [codeAfter, hrange]
      exact congrArg (· && _) (Bool.or_false code).symm
  · refine ⟨⟨hrange, fun text htext => ?_, fun hname => ?_⟩, nofun, ?_⟩
    · obtain ⟨hchars, hline⟩ := token_spelling htoken htext
      rw [htake] at hchars
      exact eq_of_chars_eq hline hchars
    · obtain ⟨hstart, hend⟩ := token_name htoken hname
      refine ⟨⟨c, ?_, by rwa [hchar, isNameStart_glyph] at hstart⟩, fun d hd => ?_⟩
      · obtain ⟨d, taken, rfl⟩ := exists_cons_of_ne_nil hne
        cases htext
        rfl
      · obtain ⟨post, rfl⟩ := head?_eq_some_iff.1 hd
        obtain ⟨_, _, _, g'', -, -, -, hnext, -, hchar', -⟩ := @exists_first d post r
        rw [hdrop, hnext] at hend
        rw [← isNameChar_glyph, ← hchar']
        exact hend g'' rfl
    · rw [codeAfter, hrange]
      exact congrArg (· && _) (Bool.or_true code).symm

variable {ps : List Piece} {ms : List Mark} {more pre : List Char}

theorem cut_of_pieces {code : Bool}
    (h : pieces (Glyph.endOf q (Glyph.ofChars q cs)) code 0 (Glyph.ofChars q cs) = .ok ps) :
    Cut q code cs ps := by
  generalize hlength : cs.length = length
  induction length using Nat.strongRecOn generalizing code q cs ps with
  | ind length ih =>
    subst hlength
    cases cs with
    | nil =>
      rw [ofChars_nil] at h
      cases h
      exact .nil q code
    | cons c cs =>
      obtain ⟨_, _, _, g, -, -, -, hgs, -, -⟩ := @exists_first c cs q
      have hpieces := h
      rw [hgs] at hpieces
      obtain ⟨pc, n, more, hpiece, hmore, rfl⟩ := pieces_cons hpieces
      obtain ⟨taken, post, r, hcs, hleads, hdrop, hne, hspelled, hflag, hcode⟩ :=
        exists_spelled hgs hpiece
      rw [hcode, hdrop, ← hgs, hcs, hleads.endOf_append] at hmore
      rw [hcs]
      refine .cons hne hleads hspelled hflag (ih post.length ?_ hmore rfl)
      rw [hcs, length_append]
      exact Nat.lt_add_of_pos_left (length_pos_iff.2 hne)

/-! ## Marks of a text that is cut -/

def Piece.mark? : Piece → Option Mark
  | .blank => none
  | .comment c => some (.inr c)
  | .token t => some (.inl t)

theorem Piece.Spelled.range (h : pc.Spelled q r cs post) : ∀ m ∈ pc.mark?, m.range = ⟨q, r⟩ := by
  intro m hm
  cases pc with
  | blank => cases hm
  | comment c => cases hm; exact h.1
  | token t => cases hm; exact h.1

theorem filterMap_marks (ps : List Piece) :
    (ps.filterMap Piece.mark?).filterMap Sum.getLeft? = ps.filterMap Piece.token? ∧
      (ps.filterMap Piece.mark?).filterMap Sum.getRight? = ps.filterMap Piece.comment? := by
  rw [filterMap_filterMap, filterMap_filterMap]
  refine ⟨congrArg (List.filterMap · ps) ?_, congrArg (List.filterMap · ps) ?_⟩ <;>
    funext pc <;> cases pc <;> rfl

theorem mem_getLeft?_iff {t : Token} : t ∈ ms.filterMap Sum.getLeft? ↔ .inl t ∈ ms := by
  simp [mem_filterMap, Sum.getLeft?_eq_some_iff]

theorem mem_getRight?_iff {c : Comment} : c ∈ ms.filterMap Sum.getRight? ↔ .inr c ∈ ms := by
  simp [mem_filterMap, Sum.getRight?_eq_some_iff]

theorem mem_marks_cons {m : Mark} : m ∈ (pc :: ps).filterMap Piece.mark? ↔ m ∈ pc.mark? ∨
    m ∈ ps.filterMap Piece.mark? := by
  simp only [mem_filterMap, mem_cons, exists_eq_or_imp, Option.mem_def]

namespace Cut

variable {q : Position} {code : Bool} {cs : List Char} {ps : List Piece}

theorem le_start (h : Cut q code cs ps) : ∀ m ∈ ps.filterMap Piece.mark?, q ≤ m.range.start := by
  induction h with
  | nil => exact fun _ hm => nomatch hm
  | cons _ hleads hpiece _ _ ih =>
    intro m hm
    rcases mem_marks_cons.1 hm with hm | hm
    · rw [hpiece.range m hm]
      exact Position.le_refl _
    · exact Position.le_trans hleads.le (ih m hm)

theorem pairwise (h : Cut q code cs ps) :
    (ps.filterMap Piece.mark?).Pairwise fun m n => m.range.Before n.range := by
  induction h with
  | nil => exact .nil
  | @cons _ _ _ _ _ pc _ _ _ hpiece _ hrest ih =>
    cases hmark : pc.mark? with
    | none => rwa [filterMap_cons_none hmark]
    | some m =>
      rw [filterMap_cons_some hmark, pairwise_cons]
      refine ⟨fun n hn => ?_, ih⟩
      rw [TextRange.Before, hpiece.range m hmark]
      exact hrest.le_start n hn

theorem exists_piece (hpre : Glyph.Leads {} pre cs q) (h : Cut q code cs ps) {m : Mark}
    (hm : m ∈ ps.filterMap Piece.mark?) :
    ∃ (pc : Piece) (before under behind : List Char), pc.mark? = some m ∧
      pre ++ cs = before ++ (under ++ behind) ∧ under ≠ [] ∧
      Glyph.Leads {} before (under ++ behind) m.range.start ∧
      Glyph.Leads m.range.start under behind m.range.stop ∧
      pc.Spelled m.range.start m.range.stop under behind := by
  induction h generalizing pre with
  | nil => cases hm
  | @cons q r code cs post pc ps hne hleads hpiece _ _ ih =>
    rcases mem_marks_cons.1 hm with hm | hm
    · have hrange : m.range = ⟨q, r⟩ := hpiece.range m hm
      rw [hrange]
      exact ⟨pc, pre, cs, post, hm, rfl, hne, hpre, hleads, hpiece⟩
    · rw [← append_assoc]
      exact ih (hpre.trans hleads) hm

theorem start_lt_stop (h : Cut q code cs ps) :
    ∀ m ∈ ps.filterMap Piece.mark?, m.range.start < m.range.stop := by
  induction h with
  | nil => exact fun _ hm => nomatch hm
  | cons hne hleads hpiece _ _ ih =>
    intro m hm
    rcases mem_marks_cons.1 hm with hm | hm
    · rw [hpiece.range m hm]
      exact hleads.lt hne
    · exact ih m hm

theorem spaced (h : Cut q code cs ps) :
    Token.InOrder (ps.filterMap Piece.token?) (Glyph.endOf q (Glyph.ofChars q cs)) ∧
      Token.Spaced (ps.filterMap Piece.token?) ∧
      q ≤ Token.startOf (ps.filterMap Piece.token?) (endOf q (ofChars q cs)) ∧
      ∀ t ∈ (ps.filterMap Piece.token?).head?, q ≤ t.range.start ∧
        (t.kind.isName = true → q < t.range.start ∨ ∃ c ∈ cs.head?, isNameStart c = true) := by
  induction h with
  | nil q => exact ⟨trivial, trivial, (leads_endOf q []).le, nofun⟩
  | @cons q r code cs post pc ps hne hleads hpiece _ _ ih =>
    rw [hleads.endOf_append]
    obtain ⟨horder, hspaced, hle, hfirst⟩ := ih
    have hlt := hleads.lt hne
    -- What a blank or a comment opens with stands behind it.
    have hlater : ∀ t ∈ (ps.filterMap Piece.token?).head?, q ≤ t.range.start ∧
        (t.kind.isName = true → q < t.range.start ∨
          ∃ c ∈ (cs ++ post).head?, isNameStart c = true) := fun t ht =>
      have hlt := Position.lt_of_lt_of_le hlt (hfirst t ht).1
      ⟨Position.le_of_lt hlt, fun _ => .inl hlt⟩
    cases pc with
    | blank => exact ⟨horder, hspaced, Position.le_trans (Position.le_of_lt hlt) hle, hlater⟩
    | comment c => exact ⟨horder, hspaced, Position.le_trans (Position.le_of_lt hlt) hle, hlater⟩
    | token t =>
      obtain ⟨hrange, -, hname⟩ := hpiece
      have hwide : t.range.start < t.range.stop := by rwa [hrange]
      refine ⟨⟨Position.le_of_lt hwide, by rwa [hrange], horder⟩,
        ⟨hwide, fun u hu => ?_, hspaced⟩, ?_, ?_⟩
      · refine ⟨by rw [hrange]; exact (hfirst u hu).1, fun htname huname => ?_⟩
        rcases (hfirst u hu).2 huname with hlt | ⟨c, hc, hstart⟩
        · rwa [hrange]
        · have hend := (hname htname).2 c hc
          rw [isNameChar_of_isNameStart hstart] at hend
          cases hend
      · show q ≤ t.range.start
        rw [hrange]
        exact Position.le_refl _
      · rintro _ ⟨⟩
        refine ⟨by rw [hrange]; exact Position.le_refl _, fun htname => .inr ?_⟩
        obtain ⟨c, cs, rfl⟩ := exists_cons_of_ne_nil hne
        exact (hname htname).1

end Cut

/-! ## From characters to bytes -/

theorem encode_longOpen : Utf8.encode (longOpen level ++ more) =
    91 :: (List.replicate level 61 ++ 91 :: Utf8.encode more) := by
  have hsigns : encode (List.replicate level '=') = List.replicate level 61 := by
    induction level with
    | zero => rfl
    | succ level ih =>
      rw [replicate_succ, encode_cons, ih]
      rfl
  rw [longOpen, cons_append, append_assoc, encode_cons, encode_append, hsigns]
  rfl

theorem opensLong_longOpen : Utf8.opensLong (Utf8.encode (longOpen level ++ more)) = true := by
  rw [encode_longOpen, opensLong, dropWhile_append_of_pos]
  · rfl
  · exact fun b hb => beq_iff_eq.2 (eq_of_mem_replicate hb)

theorem isLineEnd_encode {ds : List Char} (h : ∀ d ∈ ds, Glyph.isLineEnd d = false) :
    ∀ b ∈ encode ds, isLineEnd b = false := by
  intro b hb
  obtain ⟨d, hd, hb⟩ := mem_flatMap.1 hb
  exact isLineEnd_of_mem (h d hd) b hb

theorem isLineEnd_head_encode (h : ∀ d ∈ post.head?, Glyph.isLineEnd d = true) :
    ∀ b ∈ (encode post).head?, isLineEnd b = true := by
  intro b hb
  cases post with
  | nil => cases hb
  | cons d post =>
    obtain ⟨a, ha, -, hend⟩ := exists_utf8EncodeChar_lineEnd (h d rfl)
    rw [encode_cons, ha] at hb
    cases hb
    exact hend

theorem Piece.Spelled.mark (h : pc.Spelled q r cs post) :
    ∀ m ∈ pc.mark?, m.Spelled (Utf8.encode cs) (Utf8.encode post) := by
  intro m hm
  cases pc with
  | blank => cases hm
  | token t =>
    cases hm
    exact fun text htext => by rw [h.2.1 text htext]
  | comment c =>
    cases hm
    rcases h.2 with ⟨level, more, rfl⟩ | ⟨rfl, hline, hnext⟩
    · exact ⟨_, rfl, fun hshort => absurd opensLong_longOpen (Bool.eq_false_iff.1 hshort)⟩
    · exact ⟨_, rfl, fun _ => ⟨rfl, isLineEnd_encode hline, isLineEnd_head_encode hnext⟩⟩

theorem Piece.Spelled.blank (h : Piece.blank.Spelled q r cs post) :
    ∀ b ∈ Utf8.encode cs, Utf8.isBlank b = true ∨ Utf8.isLineEnd b = true := by
  intro b hb
  obtain ⟨c, hc, hb⟩ := mem_flatMap.1 hb
  rcases h c hc with hblank | hend
  · have hbytes : ∀ b ∈ String.utf8EncodeChar c, Utf8.isBlank b = true := by
      simp only [Lexer.isBlank, Bool.or_eq_true, beq_iff_eq] at hblank
      rcases hblank with ((rfl | rfl) | rfl) | rfl <;> exact all_eq_true.1 (by decide)
    exact .inl (hbytes b hb)
  · obtain ⟨a, ha, -, hend⟩ := exists_utf8EncodeChar_lineEnd hend
    rw [ha, mem_singleton] at hb
    exact .inr (hb ▸ hend)

namespace Cut

variable {q : Position} {code : Bool} {pre cs : List Char} {ps : List Piece}

theorem between (hpre : Glyph.Leads {} pre cs q) (h : Cut q code cs ps) {i : Nat} {b : UInt8}
    (hb : (encode (pre ++ cs))[i]? = some b) (hi : (encode pre).length ≤ i)
    (hfree : ∀ m ∈ ps.filterMap Piece.mark?, ¬ m.Covers (encode (pre ++ cs)) i) :
    Utf8.isBlank b = true ∨ Utf8.isLineEnd b = true := by
  induction h generalizing pre with
  | nil =>
    rw [append_nil, getElem?_eq_none hi] at hb
    cases hb
  | @cons q r code cs post pc ps hne hleads hpiece _ _ ih =>
    have hnext := hpre.trans hleads
    rw [← append_assoc] at hb hfree
    by_cases hlt : i < (encode (pre ++ cs)).length
    · cases hmark : pc.mark? with
      | some m =>
        refine absurd ?_ (hfree m (mem_marks_cons.2 (.inl hmark)))
        refine ⟨_, _, ?_, ?_, hi, hlt⟩
        · rw [hpiece.range m hmark, append_assoc, hpre.offset?_eq]
        · rw [hpiece.range m hmark, hnext.offset?_eq]
      | none =>
        obtain rfl : pc = .blank := by
          cases pc with
          | blank => rfl
          | comment c => cases hmark
          | token t => cases hmark
        rw [encode_append, getElem?_append_left hlt, encode_append, getElem?_append_right hi] at hb
        exact hpiece.blank b (mem_of_getElem? hb)
    · exact ih hnext hb (Nat.le_of_not_lt hlt) fun m hm => hfree m (mem_marks_cons.2 (.inr hm))

end Cut

theorem hashLine_spelling (htake : gs.take (hashLine gs) = Glyph.ofChars {} pre) :
    pre = [] ∨ pre.head? = some '#' ∧ ∀ c ∈ pre, isLineEnd c = false := by
  unfold hashLine at htake
  split at htake
  · rename_i hhash
    right
    have hchars := chars_take_takeWhile (· != '\n') gs
    rw [htake] at hchars
    have hline : '\n' ∉ takeWhile (· != '\n') gs :=
      fun hmem => absurd (of_mem_takeWhile hmem) (by decide)
    have hpre := eq_of_chars_eq hline hchars
    refine ⟨?_, fun c hc => ?_⟩
    · cases gs with
      | nil => cases hhash
      | cons g gs =>
        have hg : g.char = '#' := by simpa [startsWith] using hhash
        rw [hpre, Glyph.takeWhile, hg]
        rfl
    · rw [hpre] at hc
      exact isLineEnd_of_mem_chars (hchars ▸ hc) fun heq => hline (heq ▸ hc)
  · exact .inl (ofChars_eq_nil htake.symm)

theorem hashLine_bytes (h : pre = [] ∨ pre.head? = some '#' ∧ ∀ c ∈ pre, Glyph.isLineEnd c = false)
    (post : List Char) {i : Nat} (hi : i < (encode pre).length) :
    (encode (pre ++ post))[0]? = some 35 ∧
      ∀ j ≤ i, ∀ b ∈ (encode (pre ++ post))[j]?, isLineEnd b = false := by
  rcases h with rfl | ⟨hhash, hline⟩
  · cases hi
  · refine ⟨?_, fun j hj b hb => ?_⟩
    · cases pre with
      | nil => cases hhash
      | cons c pre => cases hhash; rfl
    · rw [encode_append, getElem?_append_left (Nat.lt_of_le_of_lt hj hi)] at hb
      exact isLineEnd_encode hline b (mem_of_getElem? hb)

theorem cut_of_tokenize {lexed : Lexed} (h : tokenize text = .ok lexed) :
    ∃ pre cs q ps, text.toList = pre ++ cs ∧ Glyph.Leads {} pre cs q ∧
      (pre = [] ∨ pre.head? = some '#' ∧ ∀ c ∈ pre, isLineEnd c = false) ∧ Cut q false cs ps ∧
      lexed = ⟨ps.filterMap Piece.token?, ps.filterMap Piece.comment?, endOf {} (ofText text)⟩ := by
  obtain ⟨ps, hpieces, hlexed⟩ := exists_pieces_of_tokenize h
  unfold ofText at hpieces
  obtain ⟨pre, cs, q, htext, hleads, htake, hdrop⟩ :=
    exists_leads {} text.toList (hashLine (ofChars {} text.toList))
  rw [pieces_skip, hdrop, htext, hleads.endOf_append] at hpieces
  exact ⟨pre, cs, q, ps, htext, hleads, hashLine_spelling htake, cut_of_pieces hpieces, hlexed⟩

end Lexer

section

variable {lexed : Lexed} (h : tokenize text = .ok lexed)
include h

theorem tokenize_inOrder : Token.InOrder lexed.tokens lexed.stop := by
  obtain ⟨pre, cs, q, ps, htext, hleads, -, hcut, rfl⟩ := cut_of_tokenize h
  rw [ofText, htext, hleads.endOf_append]
  exact hcut.spaced.1

theorem tokenize_spaced : Token.Spaced lexed.tokens := by
  obtain ⟨pre, cs, q, ps, -, -, -, hcut, rfl⟩ := cut_of_tokenize h
  exact hcut.spaced.2.1

end

/-- The tokens and comments of a text, in the order of the text, lead back to its bytes. -/
theorem tokenize_lossless {lexed : Lexed} (h : tokenize text = .ok lexed) :
    ∃ row : List Mark, row.filterMap Sum.getLeft? = lexed.tokens ∧
      row.filterMap Sum.getRight? = lexed.comments ∧
      Lossless (Utf8.encode text.toList) row lexed.stop := by
  obtain ⟨pre, cs, q, ps, htext, hleads, htake, hcut, rfl⟩ := cut_of_tokenize h
  refine ⟨ps.filterMap Lexer.Piece.mark?, (filterMap_marks ps).1, (filterMap_marks ps).2, ?_⟩
  have hstop := (leads_endOf {} text.toList).offset?_eq
  rw [append_nil] at hstop
  refine ⟨fun m hm => Position.le_of_lt (hcut.start_lt_stop m hm), hcut.pairwise,
    fun m hm => ?_, hstop, fun m hm => ?_, ?_⟩
  · obtain ⟨-, before, under, behind, -, hplace, -, hbefore, hunder, -⟩ :=
      hcut.exists_piece hleads hm
    rw [ofText, htext, hplace, ← append_assoc, (hbefore.trans hunder).endOf_append]
    exact (leads_endOf _ behind).le
  · obtain ⟨pc, before, under, behind, hpc, hplace, -, hbefore, hunder, hspelled⟩ :=
      hcut.exists_piece hleads hm
    rw [htext, hplace]
    exact ⟨_, _, _, .of_leads hbefore hunder, hspelled.mark m hpc⟩
  intro i b hb hfree
  rw [htext] at hb hfree ⊢
  by_cases hi : (Utf8.encode pre).length ≤ i
  · exact (hcut.between hleads hb hi hfree).imp_right .inl
  · exact .inr (.inr (hashLine_bytes htake cs (Nat.lt_of_not_le hi)))

/-- A text with a first line for the shell, all four line ends, both kinds of comments, and strings
of several lines. -/
def layoutText : String :=
  "#!/usr/bin/lua\n\rlocal s = 'a\\z \r\n b' --[=[ long\n ]] ]=] --é to the end\r\nreturn s .. [[\r x]]--\n"

theorem tokenize_lossless_layoutText :
    ∃ lexed, tokenize layoutText = .ok lexed ∧ lexed.comments.length = 3 ∧
      ∃ row : List Mark, row.filterMap Sum.getLeft? = lexed.tokens ∧
        row.filterMap Sum.getRight? = lexed.comments ∧
        Lossless (Utf8.encode layoutText.toList) row lexed.stop := by
  have hread : ((tokenize layoutText).map fun lexed => lexed.comments.length).toOption =
    some 3 := by decide +kernel
  cases h : tokenize layoutText with
  | error e => rw [h] at hread; cases hread
  | ok lexed =>
    rw [h] at hread
    exact ⟨lexed, rfl, Option.some.inj hread, tokenize_lossless h⟩

end LuaAnalysis
