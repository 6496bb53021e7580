import LuaAnalysis.Proofs.Token.Lossless

/-!
# Tokens that are printed are read back

A lexeme is a token with the way in which it is printed: a string is written between quotes, with
the characters that could not stand there escaped, or in a long bracket. The lexer finds the lexemes
again that are printed with blanks around them, and nothing else (`tokenize_print`). What a scanner
gives depends on the characters of its glyphs alone, so each scanner is followed along the
characters of what it is to read.
-/

namespace LuaAnalysis

open Glyph List

/-! ## Printing -/

/-- A token with its spelling. -/
inductive Lexeme where
  | keyword (word : Keyword)
  | symbol (sign : Symbol)
  | name (text : String)
  | quoted (quote : Char) (text : String)
  | long (level : Nat) (text : String)
deriving DecidableEq, Repr

namespace Lexeme

def kind : Lexeme → TokenKind
  | keyword word => .keyword word
  | symbol sign => .symbol sign
  | name text => .name text
  | quoted _ text | long _ text => .string text

/-- How a character of a string stands between quotes. -/
def escaped (quote c : Char) : List Char :=
  if c = '\\' ∨ c = quote then ['\\', c]
  else if c = '\n' then ['\\', 'n']
  else if c = '\r' then ['\\', 'r']
  else [c]

def spell : Lexeme → List Char
  | keyword word => word.text.toList
  | symbol sign => sign.text.toList
  | name text => text.toList
  | quoted quote text => quote :: (text.toList.flatMap (escaped quote) ++ [quote])
  | long level text => Lexer.longOpen level ++ '\n' :: (text.toList ++ Lexer.longClose level)

/-- A name is a word that is no keyword, a quote is single or double, and a long bracket holds
neither carriage returns nor the beginning of its closing. -/
def Valid : Lexeme → Prop
  | keyword _ | symbol _ => True
  | name text =>
    (∃ c ∈ text.toList.head?, Lexer.isNameStart c = true) ∧
    (∀ c ∈ text.toList, Lexer.isNameChar c = true) ∧
      ∀ word : Keyword, word.text ≠ text
  | quoted quote _ => quote = '"' ∨ quote = '\''
  | long level text => '\r' ∉ text.toList ∧ ¬ ']' :: List.replicate level '=' <:+: text.toList

/-- The text of lexemes, with a blank in front and behind each of them. -/
def print (ls : List Lexeme) : String :=
  String.ofList (' ' :: ls.flatMap fun l => l.spell ++ [' '])

end Lexeme

/-! ## Glyphs of a text without carriage returns -/

variable {cs : List Char} {gs : List Glyph} {text : String} {g : Glyph} {l : Lexeme}
variable {c : Char} {sign : Symbol} {stop : Position} {code : Bool}

namespace Glyph

theorem eq_newline_of_isLineEnd (hend : isLineEnd c = true) (hc : c ≠ '\r') : c = '\n' := by
  rw [isLineEnd, Bool.or_eq_true, beq_iff_eq, beq_iff_eq] at hend
  exact hend.resolve_right hc

theorem chars_ofChars (h : '\r' ∉ cs) (p : Position) : chars (ofChars p cs) = cs := by
  induction cs generalizing p with
  | nil => rw [ofChars_nil]; rfl
  | cons c cs ih =>
    rw [mem_cons, not_or] at h
    cases hc : isLineEnd c with
    | false => rw [ofChars_char hc, chars_cons, ih h.2]
    | true =>
      obtain rfl := eq_newline_of_isLineEnd hc (Ne.symm h.1)
      have hnext : ∀ d ∈ cs.head?, joins '\n' d = false := by
        intro d hd
        have hne : d ≠ '\r' := fun heq => h.2 (heq ▸ mem_of_mem_head? hd)
        cases hend : isLineEnd d with
        | true => rw [eq_newline_of_isLineEnd hend hne]; rfl
        | false => rw [joins, hend, Bool.and_false, Bool.false_and]
      rw [ofChars_line hc hnext, chars_cons, ih h.2]

theorem takeWhile_eq {p : Char → Bool} : takeWhile p gs = (chars gs).takeWhile p := by
  induction gs with
  | nil => rfl
  | cons g gs ih => rw [takeWhile, ih, chars_cons, takeWhile_cons]

theorem exists_cons_of_chars (h : chars gs = c :: cs) :
    ∃ g gs', gs = g :: gs' ∧ g.char = c ∧ chars gs' = cs := by
  cases gs with
  | nil => cases h
  | cons g gs => exact ⟨g, gs, rfl, (List.cons.inj h).1, (List.cons.inj h).2⟩

theorem chars_drop_of_append {ds : List Char} (h : chars gs = cs ++ ds) :
    chars (gs.drop cs.length) = ds := by
  rw [chars_drop, h, drop_left]

end Glyph

namespace Lexer

variable {gs : List Glyph} {rest : List Char}

/-! ## Quoted strings -/

section Quoted

variable {quote : Char} {g h : Glyph} {bytes : List UInt8} {b : UInt8} {n : Nat}

theorem quotedBody_escape (hg : g.char = '\\') (hh : simpleEscape? h.char = some b)
    (hrest : quotedBody quote 0 gs = .ok (bytes, n)) :
    quotedBody quote 0 (g :: h :: gs) = .ok (b :: bytes, n + 2) := by
  have hescape : escape (h :: gs) = .ok ([b], 1) := by rw [escape, hh]
  rw [quotedBody, hg, if_neg (by decide), if_pos (by decide), hescape]
  dsimp only
  rw [quotedBody, hrest]
  rfl

theorem quotedBody_plain (hline : g.char ≠ '\n') (hslash : g.char ≠ '\\') (hquote : g.char ≠ quote)
    (hrest : quotedBody quote 0 gs = .ok (bytes, n)) :
    quotedBody quote 0 (g :: gs) = .ok (String.utf8EncodeChar g.char ++ bytes, n + 1) := by
  rw [quotedBody, if_neg (by simpa using hline), if_neg (by simpa using hslash),
    if_neg (by simpa using hquote), hrest]
  rfl

/-- A character is written as it is, or as a backslash and a letter that stands for its byte. -/
theorem escaped_cases (hquote : quote = '"' ∨ quote = '\'') :
    Lexeme.escaped quote c = [c] ∧ c ≠ '\n' ∧ c ≠ '\\' ∧ c ≠ quote ∨
      ∃ d b, Lexeme.escaped quote c = ['\\', d] ∧ simpleEscape? d = some b ∧
        String.utf8EncodeChar c = [b] := by
  unfold Lexeme.escaped
  split
  · rename_i hc
    right
    rcases hc with rfl | rfl
    · exact ⟨_, 92, rfl, rfl, by decide⟩
    · rcases hquote with rfl | rfl
      · exact ⟨_, 34, rfl, rfl, by decide⟩
      · exact ⟨_, 39, rfl, rfl, by decide⟩
  · rename_i hc
    split
    · rename_i hline
      exact .inr ⟨_, 10, rfl, rfl, hline ▸ by decide⟩
    · rename_i hline
      split
      · rename_i hreturn
        exact .inr ⟨_, 13, rfl, rfl, hreturn ▸ by decide⟩
      · exact .inl ⟨rfl, hline, fun h => hc (.inl h), fun h => hc (.inr h)⟩

theorem quotedBody_spell (hquote : quote = '"' ∨ quote = '\'') {text : List Char}
    (hgs : chars gs = text.flatMap (Lexeme.escaped quote) ++ quote :: rest) :
    quotedBody quote 0 gs =
      .ok (Utf8.encode text, (text.flatMap (Lexeme.escaped quote)).length + 1) := by
  induction text generalizing gs with
  | nil =>
    obtain ⟨g, gs, rfl, hg, -⟩ := exists_cons_of_chars hgs
    rw [quotedBody, hg]
    rcases hquote with rfl | rfl <;> rfl
  | cons c text ih =>
    rw [flatMap_cons, append_assoc] at hgs
    rw [flatMap_cons, length_append, Utf8.encode_cons]
    rcases escaped_cases hquote with ⟨hc, hline, hslash, hne⟩ | ⟨d, b, hc, hd, hb⟩
    · rw [hc] at hgs ⊢
      obtain ⟨g, gs, rfl, rfl, hmore⟩ := exists_cons_of_chars hgs
      rw [quotedBody_plain hline hslash hne (ih hmore), length_singleton, Nat.add_comm 1]
    · rw [hc] at hgs ⊢
      obtain ⟨g, gs, rfl, hg, hgs⟩ := exists_cons_of_chars hgs
      obtain ⟨h, gs, rfl, rfl, hmore⟩ := exists_cons_of_chars hgs
      rw [quotedBody_escape hg hd (ih hmore), hb, singleton_append, Nat.add_right_comm,
        Nat.add_comm _ 2]
      rfl

theorem quoted_spell (hquote : quote = '"' ∨ quote = '\'')
    (hgs : chars gs = (Lexeme.quoted quote text).spell ++ rest) :
    quoted quote gs = .ok (text, (Lexeme.quoted quote text).spell.length) := by
  rw [Lexeme.spell, cons_append, append_assoc] at hgs
  obtain ⟨g, gs, rfl, -, hgs⟩ := exists_cons_of_chars hgs
  rw [quoted, drop_one, tail_cons, quotedBody_spell hquote hgs]
  dsimp only
  rw [Utf8.decodeLossy_encode, String.ofList_toList, Lexeme.spell, length_cons, length_append,
    length_singleton]

end Quoted

/-! ## Long brackets -/

section Long

variable {level : Nat} {text : List Char}

theorem not_begins_longClose {c : Char} (h : ¬ ']' :: List.replicate level '=' <:+: c :: text) :
    ¬ longClose level <+: c :: (text ++ (longClose level ++ rest)) := by
  intro hclose
  rw [longClose, cons_append, cons_prefix_cons] at hclose
  obtain ⟨rfl, hclose⟩ := hclose
  have hsigns := (prefix_append _ _).trans hclose
  rcases Nat.lt_or_ge text.length level with hlt | hge
  · -- The text ends among the signs, where its own closing stands instead of the next one.
    obtain ⟨k, hk⟩ := Nat.exists_eq_add_of_lt hlt
    have hlength : text.length ≤ (List.replicate level '=').length := by
      rw [length_replicate]
      exact Nat.le_of_lt hlt
    have hequal : text = List.replicate text.length '=' := by
      have hbegins := prefix_of_prefix_length_le (prefix_append _ _) hsigns hlength
      rw [prefix_iff_eq_take, take_replicate, Nat.min_eq_left (Nat.le_of_lt hlt)] at hbegins
      exact hbegins
    rw [hk, Nat.add_assoc, ← replicate_append_replicate, append_assoc, ← hequal,
      prefix_append_right_inj, replicate_succ, cons_append, cons_append, cons_prefix_cons] at hclose
    exact absurd hclose.1 (by decide)
  · have hinside :=
      prefix_of_prefix_length_le hsigns (prefix_append text _) (by rwa [length_replicate])
    exact h (cons_prefix_cons.2 ⟨rfl, hinside⟩).isInfix

theorem longBody?_spell (htext : ¬ ']' :: List.replicate level '=' <:+: text)
    (hgs : chars gs = text ++ (longClose level ++ rest)) :
    longBody? level gs = some (text, text.length + (level + 2)) := by
  induction text generalizing gs with
  | nil =>
    have hclose : startsWith (longClose level) gs = true := by
      rw [startsWith_iff, hgs]
      exact prefix_append _ _
    cases gs with
    | nil => cases hclose
    | cons g gs => rw [longBody?, if_pos hclose, length_nil, Nat.zero_add]
  | cons c text ih =>
    obtain ⟨g, gs, rfl, hg, hmore⟩ := exists_cons_of_chars hgs
    have hinside : ¬ ']' :: List.replicate level '=' <:+: text :=
      fun h => htext (h.trans (suffix_cons _ _).isInfix)
    have hopen : ¬ startsWith (longClose level) (g :: gs) = true := by
      rw [startsWith_iff, hgs]
      exact not_begins_longClose htext
    rw [longBody?, if_neg hopen, ih hinside hmore, hg, length_cons, Nat.add_right_comm]
    rfl

theorem longLevel?_spell (hgs : Glyph.chars gs = longOpen level ++ rest) :
    longLevel? gs = some level := by
  rw [longOpen, cons_append, append_assoc] at hgs
  obtain ⟨g, gs, rfl, hg, hmore⟩ := exists_cons_of_chars hgs
  have hsigns : takeWhile (· == '=') gs = List.replicate level '=' := by
    rw [takeWhile_eq, hmore, takeWhile_append_of_pos]
    · simp
    · exact fun c hc => beq_iff_eq.2 (eq_of_mem_replicate hc)
  have hopen : startsWith ['['] (gs.drop level) = true := by
    rw [startsWith_iff, chars_drop, hmore, drop_left' (length_replicate)]
    exact prefix_append _ _
  rw [longLevel?, hg, if_pos (by decide), hsigns, length_replicate]
  exact if_pos hopen

theorem longBracket_spell {string : String}
    (htext : ¬ ']' :: List.replicate level '=' <:+: string.toList)
    (hgs : chars gs = (Lexeme.long level string).spell ++ rest) :
    longBracket level gs = .ok (string, (Lexeme.long level string).spell.length) := by
  have hlength : (longOpen level).length = level + 2 := by simp [longOpen]
  have hclose : (longClose level).length = level + 2 := by simp [longClose]
  rw [Lexeme.spell, append_assoc, cons_append, append_assoc] at hgs
  have hbody := chars_drop_of_append hgs
  rw [hlength] at hbody
  have hline : startsWith ['\n'] (gs.drop (level + 2)) = true := by
    rw [startsWith_iff, hbody]
    exact prefix_append ['\n'] _
  have hinside : chars ((gs.drop (level + 2)).drop 1) =
      string.toList ++ (longClose level ++ rest) := by
    rw [chars_drop, hbody]
    rfl
  unfold longBracket
  dsimp only
  rw [if_pos hline, longBody?_spell htext hinside]
  dsimp only
  have htotal : (Lexeme.long level string).spell.length =
      level + 2 + 1 + (string.toList.length + (level + 2)) := by
    rw [Lexeme.spell, length_append, length_cons, length_append, hlength, hclose]
    omega
  rw [String.ofList_toList, htotal]

end Long

/-! ## Words and symbols -/

theorem ofText?_text {word : Keyword} : Keyword.ofText? word.text = some word := by
  cases word <;> decide

theorem wordKind_name (h : ∀ word : Keyword, word.text ≠ text) : wordKind text = .name text := by
  unfold wordKind
  split
  · rename_i word hword
    exact absurd (text_of_ofText? hword) (h word)
  · rfl

theorem token_word (hhead : ∃ c ∈ text.toList.head?, isNameStart c = true)
    (htext : ∀ c ∈ text.toList, isNameChar c = true)
    (hgs : chars (g :: gs) = text.toList ++ ' ' :: rest) :
    token g gs = .ok (wordKind text, text.toList.length) := by
  have hstart : isNameStart g.char = true := by
    obtain ⟨c, hc, hstart⟩ := hhead
    cases hchars : text.toList with
    | nil => rw [hchars] at hc; cases hc
    | cons d cs =>
      rw [hchars] at hc hgs
      cases hc
      have hg : g.char = c := (List.cons.inj hgs).1
      rwa [hg]
  have hword : takeWhile isNameChar (g :: gs) = text.toList := by
    rw [takeWhile_eq, hgs, takeWhile_append_of_pos htext, takeWhile_cons_of_neg (by decide),
      append_nil]
  rw [token, if_pos hstart, hword]
  dsimp only
  rw [String.ofList_toList]

theorem keyword_isWord (word : Keyword) :
    (∃ c ∈ word.text.toList.head?, isNameStart c = true) ∧
    ∀ c ∈ word.text.toList, isNameChar c = true := by
  cases word <;> exact ⟨⟨_, rfl, by decide⟩, all_eq_true.1 (by decide)⟩

theorem longest?_text : Symbol.longest? ((sign.text.toList ++ ' ' :: rest).take 3) = some sign := by
  cases sign <;> rfl

theorem symbol_opening : ∃ c d more, sign.text.toList ++ ' ' :: rest = c :: d :: more ∧
      (isNameStart c = false ∧ c.isDigit = false ∧ c ≠ '"' ∧ c ≠ '\'' ∧ c ≠ '\n' ∧
        isBlank c = false) ∧
        d.isDigit = false ∧ (c = '[' → d ≠ '=' ∧ d ≠ '[') ∧ (c = '-' → d ≠ '-') := by
  cases sign <;> exact ⟨_, _, _, rfl, by decide, by decide, by decide, by decide⟩

theorem token_symbol (hgs : Glyph.chars (g :: gs) = sign.text.toList ++ ' ' :: rest) :
    token g gs = .ok (.symbol sign, sign.text.toList.length) := by
  have hsymbol : symbol (g :: gs) = .ok (.symbol sign, sign.text.toList.length) := by
    rw [symbol, chars_take, hgs, longest?_text, String.length_toList]
  obtain ⟨c, d, more, hcs, ⟨hword, hdigit, hdouble, hsingle, -⟩, hnext, hbracket, -⟩ :=
    symbol_opening
  rw [hcs, chars_cons, List.cons.injEq] at hgs
  obtain ⟨rfl, hgs⟩ := hgs
  obtain ⟨h, gs, rfl, rfl, -⟩ := exists_cons_of_chars hgs
  have hnumeral : startsNumeral g.char (h :: gs) = false := by
    rw [startsNumeral, hdigit, takeUpTo, take_succ_cons, Glyph.takeWhile, hnext]
    simp
  have hlevel : longLevel? (g :: h :: gs) = none := by
    rw [longLevel?]
    split
    · rename_i hopen
      obtain ⟨hsign, hbracket⟩ := hbracket (beq_iff_eq.1 hopen)
      have hsigns : takeWhile (· == '=') (h :: gs) = [] := by
        rw [Glyph.takeWhile, if_neg (by simpa using hsign)]
      have hstop : ¬ Glyph.startsWith ['['] (h :: gs) = true := by
        simpa [Glyph.startsWith] using hbracket
      rw [hsigns]
      exact if_neg hstop
    · rfl
  rw [token, if_neg (Bool.eq_false_iff.1 hword), if_neg (Bool.eq_false_iff.1 hnumeral),
    if_neg (by simp [hdouble, hsingle]), hlevel]
  exact hsymbol

theorem opening_of_isNameStart (hc : isNameStart c = true) :
    c ≠ '\n' ∧ isBlank c = false ∧ c ≠ '-' := by
  refine ⟨?_, ?_, ?_⟩
  · rintro rfl
    exact absurd hc (by decide)
  · rw [Bool.eq_false_iff]
    intro hblank
    rw [isBlank, Bool.or_eq_true, Bool.or_eq_true, Bool.or_eq_true, beq_iff_eq, beq_iff_eq,
      beq_iff_eq, beq_iff_eq] at hblank
    rcases hblank with ((rfl | rfl) | rfl) | rfl <;> exact absurd hc (by decide)
  · rintro rfl
    exact absurd hc (by decide)

/-! ## Lexemes -/

theorem spell_opening (hl : l.Valid) :
    ∃ c more, l.spell ++ ' ' :: rest = c :: more ∧ c ≠ '\n' ∧ isBlank c = false ∧
      ¬ ['-', '-'] <+: c :: more := by
  have hword (text : String) (htext : ∃ c ∈ text.toList.head?, isNameStart c = true) :
      ∃ c more, text.toList ++ ' ' :: rest = c :: more ∧ c ≠ '\n' ∧ isBlank c = false ∧
      ¬ ['-', '-'] <+: c :: more := by
    obtain ⟨c, hc, hstart⟩ := htext
    obtain ⟨more, hmore⟩ := head?_eq_some_iff.1 hc
    obtain ⟨hline, hblank, hdash⟩ := opening_of_isNameStart hstart
    exact ⟨c, _, by rw [hmore]; rfl, hline, hblank, fun h => hdash (cons_prefix_cons.1 h).1.symm⟩
  cases l with
  | keyword word => exact hword word.text (keyword_isWord word).1
  | symbol sign =>
    obtain ⟨c, d, more, hcs, ⟨-, -, -, -, hline, hblank⟩, -, -, hdash⟩ := symbol_opening
    refine ⟨c, d :: more, hcs, hline, hblank, fun h => ?_⟩
    obtain ⟨hc, h⟩ := cons_prefix_cons.1 h
    exact hdash hc.symm (cons_prefix_cons.1 h).1.symm
  | name text => exact hword text hl.1
  | quoted quote text =>
    refine ⟨quote, _, rfl, ?_⟩
    rcases hl with rfl | rfl <;>
      exact ⟨by decide, by decide, fun h => absurd (cons_prefix_cons.1 h).1 (by decide)⟩
  | long level text =>
    exact ⟨'[', _, rfl, by decide, by decide, fun h => absurd (cons_prefix_cons.1 h).1 (by decide)⟩

theorem token_spell (hl : l.Valid) (hgs : Glyph.chars (g :: gs) = l.spell ++ ' ' :: rest) :
    token g gs = .ok (l.kind, l.spell.length) := by
  cases l with
  | keyword word =>
    have hword := keyword_isWord word
    rw [token_word hword.1 hword.2 hgs, wordKind, ofText?_text]
    rfl
  | symbol sign => exact token_symbol hgs
  | name text =>
    rw [token_word hl.1 hl.2.1 hgs, wordKind_name hl.2.2]
    rfl
  | quoted quote text =>
    have hg : g.char = quote := (List.cons.inj hgs).1
    have hstart : isNameStart quote = false ∧ startsNumeral quote gs = false ∧
        (quote == '"' || quote == '\'') = true := by
      rcases hl with rfl | rfl <;> exact ⟨by decide, rfl, by decide⟩
    rw [token, hg, if_neg (Bool.eq_false_iff.1 hstart.1), if_neg (Bool.eq_false_iff.1 hstart.2.1),
      if_pos hstart.2.2, quoted_spell hl hgs]
    rfl
  | long level text =>
    have hg : g.char = '[' := (List.cons.inj hgs).1
    have hopen : longLevel? (g :: gs) = some level := by
      rw [Lexeme.spell, append_assoc] at hgs
      exact longLevel?_spell hgs
    rw [token, hg, if_neg (by decide), if_neg (by simp [startsNumeral]), if_neg (by decide), hopen]
    dsimp only
    rw [longBracket_spell hl.2 hgs]
    rfl

theorem pieces_of_piece {pc : Piece} {n : Nat} (h : piece code stop g gs = .ok (pc, n)) :
    pieces stop code 0 (g :: gs) =
      (pieces stop (codeAfter code g pc) 0 (gs.drop n)).map (pc :: ·) := by
  rw [pieces, h]
  dsimp only
  rw [pieces_skip]

theorem pieces_blank (hg : g.char = ' ') :
    pieces stop code 0 (g :: gs) =
      (pieces stop (codeAfter code g .blank) 0 gs).map (.blank :: ·) := by
  refine pieces_of_piece (n := 0) ?_
  rw [piece, hg, if_pos (by decide)]

theorem pieces_spell (hl : l.Valid) (hgs : Glyph.chars gs = l.spell ++ ' ' :: rest) :
    ∃ range code' gs', chars gs' = rest ∧
      pieces stop code 0 gs = (pieces stop code' 0 gs').map fun ps =>
        .token ⟨l.kind, range⟩ :: .blank :: ps := by
  obtain ⟨c, more, hcs, hline, hblank, hdashes⟩ := spell_opening hl
  have hbehind := chars_drop_of_append hgs
  obtain ⟨g, gs, rfl, rfl, -⟩ := exists_cons_of_chars (hgs.trans hcs)
  have hpos : 0 < l.spell.length := by
    refine length_pos_iff.2 fun hnil => ?_
    rw [hnil, nil_append, List.cons.injEq] at hcs
    exact absurd (hcs.1 ▸ hblank) (by decide)
  have hnocomment : ¬ startsWith ['-', '-'] (g :: gs) = true := by
    rwa [startsWith_iff, hgs, hcs]
  have hpiece : ∃ range, piece code stop g gs =
      .ok (.token ⟨l.kind, range⟩, l.spell.length - 1) := by
    rw [piece, if_neg (by simp [hline, hblank]), if_neg hnocomment, token_spell hl hgs]
    exact ⟨_, rfl⟩
  obtain ⟨range, hpiece⟩ := hpiece
  rw [← Nat.sub_add_cancel hpos, drop_succ_cons] at hbehind
  obtain ⟨b, gs', hdrop, hb, hrest⟩ := exists_cons_of_chars hbehind
  refine ⟨range, codeAfter (codeAfter code g (.token ⟨l.kind, range⟩)) b .blank, gs', hrest, ?_⟩
  rw [pieces_of_piece hpiece, hdrop, pieces_blank hb]
  cases pieces stop _ 0 gs' <;> rfl

theorem pieces_print {ls : List Lexeme} (hls : ∀ l ∈ ls, l.Valid) (code : Bool)
    (hgs : chars gs = ls.flatMap fun l => l.spell ++ [' ']) :
    ∃ ts : List Token, ts.map (·.kind) = ls.map Lexeme.kind ∧
      pieces stop code 0 gs = .ok (ts.flatMap fun t => [.token t, .blank]) := by
  induction ls generalizing code gs with
  | nil =>
    cases gs with
    | nil => exact ⟨[], rfl, rfl⟩
    | cons g gs => cases hgs
  | cons l ls ih =>
    rw [flatMap_cons, append_assoc] at hgs
    obtain ⟨range, code, gs', hrest, hpieces⟩ := pieces_spell (hls l mem_cons_self) hgs
    obtain ⟨ts, hkinds, hmore⟩ := ih (fun l hl => hls l (mem_cons_of_mem _ hl)) code hrest
    refine ⟨⟨l.kind, range⟩ :: ts, by rw [map_cons, map_cons, hkinds], ?_⟩
    rw [hpieces, hmore]
    rfl

theorem return_not_mem_spell (hl : l.Valid) : '\r' ∉ l.spell := by
  cases l with
  | keyword word => exact fun h => absurd ((keyword_isWord word).2 _ h) (by decide)
  | symbol sign => cases sign <;> decide
  | name text => exact fun h => absurd (hl.2.1 _ h) (by decide)
  | quoted quote text =>
    have hquote : '\r' ≠ quote := by rcases hl with rfl | rfl <;> decide
    have hescaped (c : Char) : '\r' ∉ Lexeme.escaped quote c := by
      unfold Lexeme.escaped
      grind
    simp [Lexeme.spell, hquote, hescaped]
  | long level text => simp [Lexeme.spell, longOpen, longClose, hl.1, mem_replicate]

theorem pieces_ofText {ls : List Lexeme} (hls : ∀ l ∈ ls, l.Valid) (stop : Position) :
    hashLine (ofText (Lexeme.print ls)) = 0 ∧
    ∃ ts : List Token, ts.map (·.kind) = ls.map Lexeme.kind ∧
      pieces stop false 0 (ofText (Lexeme.print ls)) =
        .ok (.blank :: ts.flatMap fun t => [.token t, .blank]) := by
  have hreturn : '\r' ∉ ' ' :: ls.flatMap fun l => l.spell ++ [' '] := by
    simp only [mem_cons, mem_flatMap, mem_append, not_or, not_exists, not_and]
    exact ⟨by decide, fun l hl => ⟨return_not_mem_spell (hls l hl), by decide, not_mem_nil⟩⟩
  have hchars : chars (ofText (Lexeme.print ls)) = ' ' :: ls.flatMap fun l => l.spell ++ [' '] := by
    rw [ofText, Lexeme.print, String.toList_ofList, chars_ofChars hreturn]
  obtain ⟨g, gs, hglyphs, hg, hrest⟩ := exists_cons_of_chars hchars
  obtain ⟨ts, hkinds, hpieces⟩ := pieces_print hls (codeAfter false g .blank) hrest
  rw [hglyphs]
  refine ⟨?_, ts, hkinds, ?_⟩
  · rw [hashLine, if_neg (by simp [startsWith, hg])]
  · rw [pieces_blank hg, hpieces]
    rfl

end Lexer

/-- Lexemes that are printed with blanks around them are read back: their tokens in order, and no
comments. -/
theorem tokenize_print (ls : List Lexeme) (hls : ∀ l ∈ ls, l.Valid) :
    ∃ lexed, tokenize (Lexeme.print ls) = .ok lexed ∧
      lexed.tokens.map (·.kind) = ls.map Lexeme.kind ∧
      lexed.comments = [] := by
  obtain ⟨hhash, ts, hkinds, hpieces⟩ := Lexer.pieces_ofText hls _
  rw [tokenize, hhash, hpieces]
  refine ⟨_, rfl, ?_, ?_⟩
  · simpa [filterMap_flatMap] using hkinds
  · simp [filterMap_flatMap]

/-- Lexemes that would run together or be read as something else without the blanks or the
escapes. -/
def Lexeme.closeCalls : List Lexeme :=
  [.symbol .minus, .symbol .minus, .keyword .kEnd, .name "_end1", .symbol .dot, .symbol .concat,
    .symbol .lbracket, .quoted '"' "\"\\\n\r' é", .quoted '\'' "--", .long 0 "", .long 1 "\n]] [=["]

theorem tokenize_print_closeCalls : (∀ l ∈ Lexeme.closeCalls, l.Valid) ∧
    ∃ lexed, tokenize (Lexeme.print Lexeme.closeCalls) = .ok lexed ∧
      lexed.tokens.map (·.kind) = Lexeme.closeCalls.map Lexeme.kind ∧ lexed.comments = [] := by
  have hvalid : ∀ l ∈ Lexeme.closeCalls, l.Valid := by
    have hname : (Lexeme.name "_end1").Valid :=
      ⟨⟨'_', rfl, rfl⟩, all_eq_true.1 (by decide), fun word => by cases word <;> decide⟩
    have hempty : (Lexeme.long 0 "").Valid := ⟨by decide, by decide⟩
    have hlong : (Lexeme.long 1 "\n]] [=[").Valid := by
      have hchars : "\n]] [=[".toList = ['\n', ']', ']', ' ', '[', '=', '['] := rfl
      exact ⟨by rw [hchars]; decide, by rw [hchars]; decide⟩
    have hdouble : (Lexeme.quoted '"' "\"\\\n\r' é").Valid := .inl rfl
    have hsingle : (Lexeme.quoted '\'' "--").Valid := .inr rfl
    have hkeyword (word : Keyword) : (Lexeme.keyword word).Valid := trivial
    have hsymbol (sign : Symbol) : (Lexeme.symbol sign).Valid := trivial
    simp only [Lexeme.closeCalls, forall_mem_cons, hname, hempty, hlong, hdouble, hsingle,
      hkeyword, hsymbol, not_mem_nil, false_implies, implies_true, and_self]
  exact ⟨hvalid, tokenize_print Lexeme.closeCalls hvalid⟩

end LuaAnalysis
