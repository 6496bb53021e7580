import LuaAnalysis.Proofs.Text.Utf8
import LuaAnalysis.Proofs.Token.Order

/-!
# Where positions stand among bytes

A position names a line and a column, a text is a list of bytes. `offset?` reads a position back: it
goes behind as many line ends as the line says and as many bytes further as the column says. The
bytes alone decide what a line end is. `Leads` says that reading characters from one position leads
to another one and cuts no line end in two; the offset of the second position is then the number of
bytes that were read (`Leads.offset?_eq`).
-/

namespace LuaAnalysis

open Position Utf8

open List

/-! ## Offsets -/

variable {bytes : List UInt8} {pre post : List Char}

namespace Utf8

def isLineEnd (b : UInt8) : Bool :=
  b == 10 || b == 13

/-- Whether the byte `c` right after the line end `b` belongs to it. -/
def joins (b c : UInt8) : Bool :=
  isLineEnd b && isLineEnd c && b != c

/-- The number of bytes in front of the place that is `line` line ends and then `column` bytes
further, none if there is no such place. A line end is one of the bytes `\n` and `\r`, or both of
them in either order. -/
def offset? : List UInt8 → Nat → Nat → Option Nat
  | _, 0, 0 => some 0
  | [], _, _ => none
  | b :: bytes, 0, column + 1 => if isLineEnd b then none else (offset? bytes 0 column).map (· + 1)
  | [b], line + 1, column => if isLineEnd b then (offset? [] line column).map (· + 1) else none
  | b :: c :: bytes, line + 1, column =>
    if joins b c then (offset? bytes line column).map (· + 2)
    else if isLineEnd b then (offset? (c :: bytes) line column).map (· + 1)
    else (offset? (c :: bytes) (line + 1) column).map (· + 1)

theorem offset?_zero : offset? bytes 0 0 = some 0 := by
  unfold offset?
  rfl

end Utf8

def Position.offset? (p : Position) (bytes : List UInt8) : Option Nat :=
  Utf8.offset? bytes p.line p.column

variable {c : Char} {cs : List Char} {p q : Position}

namespace Utf8

variable {bs bytes : List UInt8}

theorem offset?_append_column (hbs : ∀ b ∈ bs, isLineEnd b = false) {column : Nat} :
    offset? (bs ++ bytes) 0 (bs.length + column) =
      (offset? bytes 0 column).map (· + bs.length) := by
  induction bs with
  | nil => simp
  | cons b bs ih =>
    obtain ⟨hb, hbs⟩ := forall_mem_cons.1 hbs
    have hlength : (b :: bs).length + column = bs.length + column + 1 := by
      rw [length_cons]
      omega
    rw [hlength, cons_append, offset?, hb, if_neg Bool.false_ne_true, ih hbs, Option.map_map]
    rfl

theorem offset?_append_line (hbs : ∀ b ∈ bs, isLineEnd b = false) {line column : Nat} :
    offset? (bs ++ bytes) (line + 1) column =
      (offset? bytes (line + 1) column).map (· + bs.length) := by
  induction bs with
  | nil => simp
  | cons b bs ih =>
    obtain ⟨hb, hbs⟩ := forall_mem_cons.1 hbs
    have hjoin : ∀ c, joins b c = false :=
      fun c => by rw [joins, hb, Bool.false_and, Bool.false_and]
    rw [cons_append]
    cases hmore : bs ++ bytes with
    | nil =>
      obtain ⟨rfl, rfl⟩ := append_eq_nil_iff.1 hmore
      simp [offset?, hb]
    | cons c more =>
      rw [offset?, hjoin, hb, if_neg Bool.false_ne_true, if_neg Bool.false_ne_true, ← hmore, ih hbs,
        Option.map_map]
      rfl

/-! ## Bytes of characters -/

/-- A character of one byte is that byte, and the bytes of all others are above 127. -/
theorem utf8EncodeChar_cases :
    (∃ b, String.utf8EncodeChar c = [b] ∧ b.toNat = c.toNat) ∨
    ∀ b ∈ String.utf8EncodeChar c, 128 ≤ b.toNat := by
  have hcode : c.val.toNat = c.toNat := rfl
  unfold String.utf8EncodeChar
  dsimp only
  rw [hcode]
  split
  · refine .inl ⟨_, rfl, ?_⟩
    rw [UInt8.toNat_ofNat']
    omega
  · refine .inr fun b hb => ?_
    split at hb
    · simp only [mem_cons, not_mem_nil, or_false] at hb
      rcases hb with rfl | rfl <;> rw [UInt8.toNat_ofNat'] <;> omega
    · split at hb
      · simp only [mem_cons, not_mem_nil, or_false] at hb
        rcases hb with rfl | rfl | rfl <;> rw [UInt8.toNat_ofNat'] <;> omega
      · simp only [mem_cons, not_mem_nil, or_false] at hb
        rcases hb with rfl | rfl | rfl | rfl <;> rw [UInt8.toNat_ofNat'] <;> omega

theorem isLineEnd_iff {b : UInt8} : isLineEnd b = true ↔ b.toNat = 10 ∨ b.toNat = 13 := by
  rw [isLineEnd, Bool.or_eq_true, beq_iff_eq, beq_iff_eq, ← UInt8.toNat_inj, ← UInt8.toNat_inj]
  rfl

theorem isLineEnd_char_iff : Glyph.isLineEnd c = true ↔ c.toNat = 10 ∨ c.toNat = 13 := by
  rw [Glyph.isLineEnd, Bool.or_eq_true, beq_iff_eq, beq_iff_eq, ← Char.toNat_inj, ← Char.toNat_inj]
  rfl

theorem isLineEnd_of_mem (hc : Glyph.isLineEnd c = false) :
    ∀ b ∈ String.utf8EncodeChar c, isLineEnd b = false := by
  intro b hb
  rw [← Bool.not_eq_true, isLineEnd_char_iff] at hc
  rw [← Bool.not_eq_true, isLineEnd_iff]
  rcases utf8EncodeChar_cases with ⟨a, ha, hcode⟩ | habove
  · rw [ha, mem_singleton] at hb
    rwa [hb, hcode]
  · have := habove b hb
    omega

theorem exists_utf8EncodeChar_lineEnd (hc : Glyph.isLineEnd c = true) :
    ∃ b, String.utf8EncodeChar c = [b] ∧ b.toNat = c.toNat ∧ isLineEnd b = true := by
  rw [isLineEnd_char_iff] at hc
  rcases utf8EncodeChar_cases with ⟨b, hb, hcode⟩ | habove
  · exact ⟨b, hb, hcode, isLineEnd_iff.2 (hcode ▸ hc)⟩
  · rcases hc with hc | hc
    · obtain rfl : c = '\n' := Char.toNat_inj.1 hc
      exact absurd (habove 10 (by decide)) (by decide)
    · obtain rfl : c = '\r' := Char.toNat_inj.1 hc
      exact absurd (habove 13 (by decide)) (by decide)

theorem joins_eq {b b' : UInt8} {d : Char} (hb : b.toNat = c.toNat) (hb' : b'.toNat = d.toNat) :
    joins b b' = Glyph.joins c d := by
  have hend : isLineEnd b = Glyph.isLineEnd c :=
    Bool.eq_iff_iff.2 (by rw [isLineEnd_iff, isLineEnd_char_iff, hb])
  have hend' : isLineEnd b' = Glyph.isLineEnd d :=
    Bool.eq_iff_iff.2 (by rw [isLineEnd_iff, isLineEnd_char_iff, hb'])
  have hne : (b != b') = (c != d) := by
    rw [Bool.eq_iff_iff, bne_iff_ne, bne_iff_ne, ne_eq,
      ne_eq, ← UInt8.toNat_inj, ← Char.toNat_inj, hb, hb']
  rw [joins, Glyph.joins, hend, hend', hne]

theorem joins_head {b : UInt8} (hb : b.toNat = c.toNat)
    (hnext : ∀ d ∈ cs.head?, Glyph.joins c d = false) :
    ∀ b' ∈ (encode cs).head?, joins b b' = false := by
  intro b' hb'
  cases cs with
  | nil => cases hb'
  | cons d cs =>
    rw [encode_cons] at hb'
    cases hd : Glyph.isLineEnd d with
    | true =>
      obtain ⟨a, ha, hcode, -⟩ := exists_utf8EncodeChar_lineEnd hd
      rw [ha] at hb'
      cases hb'
      rw [joins_eq hb hcode, hnext d rfl]
    | false =>
      obtain ⟨a, bs, ha⟩ := exists_cons_of_ne_nil (@String.utf8EncodeChar_ne_nil d)
      rw [ha] at hb'
      cases hb'
      rw [joins, isLineEnd_of_mem hd b' (ha ▸ mem_cons_self), Bool.and_false, Bool.false_and]

end Utf8

/-! ## Reading from position to position -/

namespace Glyph

theorem ofChars_char (hc : isLineEnd c = false) :
    ofChars p (c :: cs) = ⟨c, p, p.right c.utf8Size⟩ :: ofChars (p.right c.utf8Size) cs := by
  cases cs with
  | nil => simp [ofChars, hc]
  | cons d cs =>
    have hjoin : joins c d = false := by rw [joins, hc, Bool.false_and, Bool.false_and]
    rw [ofChars, hjoin, hc, if_neg Bool.false_ne_true, if_neg Bool.false_ne_true]

theorem ofChars_pair {d : Char} (hjoin : joins c d = true) :
    ofChars p (c :: d :: cs) = ⟨'\n', p, p.nextLine⟩ :: ofChars p.nextLine cs := by
  rw [ofChars, if_pos hjoin]

theorem ofChars_line (hc : isLineEnd c = true) (hnext : ∀ d ∈ cs.head?, joins c d = false) :
    ofChars p (c :: cs) = ⟨'\n', p, p.nextLine⟩ :: ofChars p.nextLine cs := by
  cases cs with
  | nil => simp [ofChars, hc]
  | cons d cs => rw [ofChars, hnext d rfl, if_neg Bool.false_ne_true, if_pos hc]

/-- Reading the characters `pre`, which `post` follows, leads from one position to another one, and
no line end is cut in two. -/
inductive Leads : Position → List Char → List Char → Position → Prop
  | nil (p : Position) (post : List Char) : Leads p [] post p
  | char {p q : Position} {c : Char} {pre post : List Char} (hc : isLineEnd c = false)
      (h : Leads (p.right c.utf8Size) pre post q) : Leads p (c :: pre) post q
  | pair {p q : Position} {c d : Char} {pre post : List Char} (hjoin : joins c d = true)
      (h : Leads p.nextLine pre post q) : Leads p (c :: d :: pre) post q
  | line {p q : Position} {c : Char} {pre post : List Char} (hc : isLineEnd c = true)
      (hnext : ∀ d ∈ (pre ++ post).head?, joins c d = false) (h : Leads p.nextLine pre post q) :
      Leads p (c :: pre) post q

namespace Leads

variable {p q r : Position} {pre mid post : List Char}

theorem trans (h : Leads p pre (mid ++ post) q) (h' : Leads q mid post r) :
    Leads p (pre ++ mid) post r := by
  generalize hrest : mid ++ post = rest at h
  induction h with
  | nil => exact h'
  | char hc _ ih => exact .char hc (ih h' hrest)
  | pair hjoin _ ih => exact .pair hjoin (ih h' hrest)
  | line hc hnext _ ih =>
    rw [← hrest, ← append_assoc] at hnext
    exact .line hc hnext (ih h' hrest)

theorem of_append (h : Leads p pre (mid ++ post) q) : Leads p pre mid q := by
  generalize hrest : mid ++ post = rest at h
  induction h with
  | nil => exact .nil _ _
  | char hc _ ih => exact .char hc (ih hrest)
  | pair hjoin _ ih => exact .pair hjoin (ih hrest)
  | line hc hnext _ ih =>
    refine .line hc (fun d hd => hnext d ?_) (ih hrest)
    rw [← hrest, ← append_assoc, head?_append, hd]
    rfl

theorem ofChars_append (h : Leads p pre post q) :
    ofChars p (pre ++ post) = ofChars p pre ++ ofChars q post := by
  induction h with
  | nil => rw [ofChars]; rfl
  | char hc _ ih => rw [cons_append, ofChars_char hc, ofChars_char hc, ih, cons_append]
  | pair hjoin _ ih =>
    rw [cons_append, cons_append, ofChars_pair hjoin, ofChars_pair hjoin, ih, cons_append]
  | @line _ _ c pre post hc hnext _ ih =>
    have hinside : ∀ d ∈ pre.head?, joins c d = false :=
      fun d hd => hnext d (by rw [head?_append, hd]; rfl)
    rw [cons_append, ofChars_line hc hnext, ofChars_line hc hinside, ih, cons_append]

theorem endOf_eq (h : Leads p pre post q) : endOf p (ofChars p pre) = q := by
  induction h with
  | nil => rw [ofChars]; rfl
  | char hc _ ih => rw [ofChars_char hc, endOf_cons]; exact ih
  | pair hjoin _ ih => rw [ofChars_pair hjoin, endOf_cons]; exact ih
  | @line _ _ c pre post hc hnext _ ih =>
    have hinside : ∀ d ∈ pre.head?, joins c d = false :=
      fun d hd => hnext d (by rw [head?_append, hd]; rfl)
    rw [ofChars_line hc hinside, endOf_cons]
    exact ih

theorem endOf_append (h : Leads p pre post q) :
    endOf p (ofChars p (pre ++ post)) = endOf q (ofChars q post) := by
  have happend : ∀ (gs : List Glyph) (r : Position), endOf r (gs ++ ofChars q post) =
      endOf (endOf r gs) (ofChars q post) := by
    intro gs
    induction gs with
    | nil => exact fun r => rfl
    | cons g gs ih => exact fun r => by rw [cons_append, endOf_cons, endOf_cons, ih]
  rw [h.ofChars_append, happend, h.endOf_eq]

theorem le (h : Leads p pre post q) : p ≤ q := by
  induction h with
  | nil => exact Position.le_refl _
  | char hc _ ih => exact Position.le_trans le_right ih
  | pair hjoin _ ih => exact Position.le_trans le_nextLine ih
  | line hc hnext _ ih => exact Position.le_trans le_nextLine ih

theorem lt (h : Leads p pre post q) (hne : pre ≠ []) : p < q := by
  rw [lt_iff]
  cases h with
  | nil => exact absurd rfl hne
  | @char _ _ c _ _ _ h =>
    have hle := le_iff.1 h.le
    have hpos := c.utf8Size_pos
    simp only [right] at hle
    omega
  | pair _ h =>
    have hle := le_iff.1 h.le
    simp only [nextLine] at hle
    omega
  | line _ _ h =>
    have hle := le_iff.1 h.le
    simp only [nextLine] at hle
    omega

end Leads

theorem ofChars_nil : ofChars p [] = [] := by
  rw [ofChars]

theorem exists_first : ∃ pre post q g, c :: cs = pre ++ post ∧ Leads p pre post q ∧
    ofChars p pre = [g] ∧
      ofChars p (c :: cs) = g :: ofChars q post ∧ g.range = ⟨p, q⟩ ∧
      g.char = (if isLineEnd c then '\n' else c) ∧
      (g.char != '\n') = (p.line == q.line) := by
  have hline : (p.line == p.nextLine.line) = false :=
    beq_eq_false_iff_ne.2 (Nat.ne_of_lt (Nat.lt_succ_self _))
  cases hc : isLineEnd c with
  | false =>
    refine ⟨[c], cs, _, _, rfl, .char hc (.nil _ _), ?_, ofChars_char hc, rfl, rfl, ?_⟩
    · rw [ofChars_char hc, ofChars_nil]
    · have hne : c ≠ '\n' := by
        rintro rfl
        cases hc
      simp [right, hne]
  | true =>
    by_cases hnext : ∀ d ∈ cs.head?, joins c d = false
    · refine ⟨[c], cs, _, _, rfl, .line hc hnext (.nil _ _), ?_, ofChars_line hc hnext, rfl, rfl,
        hline.symm⟩
      rw [ofChars_line hc (by simp), ofChars_nil]
    · obtain ⟨d, cs, rfl⟩ : ∃ d cs', cs = d :: cs' := by
        cases cs with
        | nil => simp at hnext
        | cons d cs => exact ⟨d, cs, rfl⟩
      have hjoin : joins c d = true := by simpa using hnext
      refine ⟨[c, d], cs, _, _, rfl, .pair hjoin (.nil _ _), ?_, ofChars_pair hjoin, rfl, rfl,
        hline.symm⟩
      rw [ofChars_pair hjoin, ofChars_nil]

theorem Leads.startOf_eq (h : Leads p pre post q) :
    startOf (ofChars q post) (endOf p (ofChars p (pre ++ post))) = q := by
  cases post with
  | nil =>
    rw [append_nil, h.endOf_eq, ofChars_nil]
    rfl
  | cons c post =>
    obtain ⟨_, _, _, g, -, -, -, hgs, hrange, -⟩ := exists_first (p := q)
    rw [hgs]
    exact congrArg TextRange.start hrange

/-- The glyphs that are left after some of them are the glyphs of the characters that are left. -/
theorem exists_leads (p : Position) (cs : List Char) (k : Nat) :
    ∃ pre post q, cs = pre ++ post ∧ Leads p pre post q ∧
      (ofChars p cs).take k = ofChars p pre ∧ (ofChars p cs).drop k = ofChars q post := by
  induction k generalizing p cs with
  | zero => exact ⟨[], cs, p, rfl, .nil p cs, by rw [take_zero, ofChars_nil], rfl⟩
  | succ k ih =>
    cases cs with
    | nil => exact ⟨[], [], p, rfl, .nil p [], by simp [ofChars_nil], by simp [ofChars_nil]⟩
    | cons c cs =>
      obtain ⟨first, rest, q, g, hcs, hfirst, hg, hgs, -, -⟩ := exists_first
      obtain ⟨pre, post, r, rfl, hpre, htake, hdrop⟩ := ih q rest
      refine ⟨first ++ pre, post, r, ?_, hfirst.trans hpre, ?_, ?_⟩
      · rw [hcs, append_assoc]
      · rw [hgs, take_succ_cons, htake, hfirst.of_append.ofChars_append, hg, singleton_append]
      · rw [hgs, drop_succ_cons, hdrop]

theorem ofChars_eq_nil (h : ofChars p cs = []) : cs = [] := by
  cases cs with
  | nil => rfl
  | cons c cs =>
    obtain ⟨_, _, _, g, -, -, -, hgs, -, -⟩ := exists_first
    rw [hgs] at h
    cases h

theorem leads_endOf (p : Position) (cs : List Char) : Leads p cs [] (endOf p (ofChars p cs)) := by
  obtain ⟨pre, post, q, rfl, hleads, -, hdrop⟩ := exists_leads p cs (ofChars p cs).length
  rw [drop_length] at hdrop
  obtain rfl := ofChars_eq_nil hdrop.symm
  rwa [append_nil, hleads.endOf_eq]

/-! ## Glyphs that end no line -/

theorem chars_cons {g : Glyph} {gs : List Glyph} : chars (g :: gs) = g.char :: chars gs :=
  rfl

theorem exists_of_chars_eq_append {ws ds : List Char} (hws : '\n' ∉ ws)
    (h : chars (ofChars q cs) = ws ++ ds) :
    ∃ rest r, cs = ws ++ rest ∧ chars (ofChars r rest) = ds := by
  induction ws generalizing q cs with
  | nil => exact ⟨cs, q, rfl, h⟩
  | cons w ws ih =>
    rw [mem_cons, not_or] at hws
    cases cs with
    | nil => rw [ofChars_nil] at h; cases h
    | cons c cs =>
      cases hc : isLineEnd c with
      | false =>
        rw [ofChars_char hc, chars_cons, cons_append, List.cons.injEq] at h
        obtain ⟨rest, r, rfl, hrest⟩ := ih hws.2 h.2
        exact ⟨rest, r, by rw [← h.1, cons_append], hrest⟩
      | true =>
        obtain ⟨_, _, _, g, -, -, -, hgs, -, hchar, -⟩ := exists_first
        rw [hgs, chars_cons, hchar, hc, if_pos rfl, cons_append, List.cons.injEq] at h
        exact absurd h.1 hws.1

theorem eq_of_chars_eq {ws : List Char} (hws : '\n' ∉ ws) (h : chars (ofChars q cs) = ws) :
    cs = ws := by
  obtain ⟨rest, r, rfl, hrest⟩ := exists_of_chars_eq_append hws (h.trans (append_nil ws).symm)
  rw [ofChars_eq_nil (map_eq_nil_iff.1 hrest), append_nil]

theorem isLineEnd_or_mem_chars (h : c ∈ cs) : isLineEnd c = true ∨ c ∈ chars (ofChars p cs) := by
  fun_induction ofChars p cs with
  | case1 p => cases h
  | case2 p d hend => exact .inl (mem_singleton.1 h ▸ hend)
  | case3 p d hend => exact .inr h
  | case4 p d e cs hjoin ih =>
    rw [joins, Bool.and_eq_true, Bool.and_eq_true] at hjoin
    rcases mem_cons.1 h with rfl | h
    · exact .inl hjoin.1.1
    rcases mem_cons.1 h with rfl | h
    · exact .inl hjoin.1.2
    exact (ih h).imp_right (mem_cons_of_mem _)
  | case5 p d e cs hjoin hend ih =>
    rcases mem_cons.1 h with rfl | h
    · exact .inl hend
    · exact (ih h).imp_right (mem_cons_of_mem _)
  | case6 p d e cs hjoin hend ih =>
    rcases mem_cons.1 h with rfl | h
    · exact .inr mem_cons_self
    · exact (ih h).imp_right (mem_cons_of_mem _)

theorem isLineEnd_of_mem_chars (h : c ∈ chars (ofChars p cs)) (hc : c ≠ '\n') :
    isLineEnd c = false := by
  fun_induction ofChars p cs with
  | case1 p => cases h
  | case2 p d hend => exact absurd (mem_singleton.1 h) hc
  | case3 p d hend => exact mem_singleton.1 h ▸ Bool.eq_false_iff.2 hend
  | case4 p d e cs hjoin ih => exact ih ((mem_cons.1 h).resolve_left hc)
  | case5 p d e cs hjoin hend ih => exact ih ((mem_cons.1 h).resolve_left hc)
  | case6 p d e cs hjoin hend ih =>
    rcases mem_cons.1 h with rfl | h
    · exact Bool.eq_false_iff.2 hend
    · exact ih h

theorem isLineEnd_head (h : ∀ g ∈ (ofChars p cs).head?, g.char = '\n') :
    ∀ c ∈ cs.head?, isLineEnd c = true := by
  rintro c hc
  cases cs with
  | nil => cases hc
  | cons d cs =>
    cases hc
    cases hend : isLineEnd c with
    | true => rfl
    | false =>
      rw [ofChars_char hend] at h
      have hchar : c = '\n' := h _ rfl
      rw [hchar] at hend
      cases hend

/-! ## Offsets of positions that reading leads to -/

def offsetFrom (p q : Position) (bytes : List UInt8) : Option Nat :=
  offset? bytes (q.line - p.line) (if q.line = p.line then q.column - p.column else q.column)

theorem offsetFrom_of_line_eq (h : q.line = p.line) :
    offsetFrom p q bytes = Utf8.offset? bytes 0 (q.column - p.column) := by
  rw [offsetFrom, if_pos h, h, Nat.sub_self]

theorem offsetFrom_of_line_lt (h : p.line < q.line) :
    offsetFrom p q bytes = offset? bytes (q.line - p.line - 1 + 1) q.column := by
  rw [offsetFrom, if_neg (Nat.ne_of_gt h), Nat.sub_add_cancel (Nat.sub_pos_of_lt h)]

theorem offsetFrom_right {bs : List UInt8} (hbs : ∀ b ∈ bs, Utf8.isLineEnd b = false)
    (hle : p.right bs.length ≤ q) :
    offsetFrom p q (bs ++ bytes) =
      (offsetFrom (p.right bs.length) q bytes).map (· + bs.length) := by
  rcases le_iff.1 hle with hline | ⟨hline, hcolumn⟩
  · rw [offsetFrom_of_line_lt hline, offsetFrom_of_line_lt (show p.line < q.line from hline),
      offset?_append_line hbs]
    rfl
  · have hsplit : q.column - p.column = bs.length + (q.column - (p.right bs.length).column) := by
      dsimp only [right] at hcolumn ⊢
      omega
    rw [offsetFrom_of_line_eq hline.symm,
      offsetFrom_of_line_eq (show q.line = p.line from hline.symm), hsplit,
      offset?_append_column hbs]

theorem offsetFrom_nextLine {e : List UInt8} (hle : p.nextLine ≤ q)
    {he : ∀ line column, offset? (e ++ bytes) (line + 1) column =
      (offset? bytes line column).map (· + e.length)} :
    offsetFrom p q (e ++ bytes) = (offsetFrom p.nextLine q bytes).map (· + e.length) := by
  have hline : p.line + 1 ≤ q.line := (le_iff.1 hle).elim Nat.le_of_lt fun h => Nat.le_of_eq h.1
  have hnext : offsetFrom p.nextLine q bytes = offset? bytes (q.line - p.line - 1) q.column := by
    rw [offsetFrom, Nat.sub_sub]
    exact congrArg _ (ite_self _)
  rw [offsetFrom_of_line_lt hline, he, hnext]

theorem Leads.offsetFrom_eq (h : Leads p pre post q) :
    offsetFrom p q (encode (pre ++ post)) = some (encode pre).length := by
  induction h with
  | nil p post =>
    rw [offsetFrom_of_line_eq rfl, Nat.sub_self, offset?_zero]
    rfl
  | @char p q c pre post hc hrest ih =>
    have hle := hrest.le
    rw [← String.length_utf8EncodeChar] at ih hle
    rw [cons_append, encode_cons, encode_cons, offsetFrom_right (isLineEnd_of_mem hc) hle, ih,
      length_append, Option.map_some, Nat.add_comm]
  | @pair p q c d pre post hjoin hrest ih =>
    have hends : isLineEnd c = true ∧ isLineEnd d = true := by
      rw [joins, Bool.and_eq_true, Bool.and_eq_true] at hjoin
      exact hjoin.1
    obtain ⟨b, hb, hcode, -⟩ := exists_utf8EncodeChar_lineEnd hends.1
    obtain ⟨b', hb', hcode', -⟩ := exists_utf8EncodeChar_lineEnd hends.2
    have hbytes : ∀ cs, encode (c :: d :: cs) = [b, b'] ++ encode cs := fun cs => by
      rw [encode_cons, encode_cons, hb, hb']
      rfl
    rw [cons_append, cons_append, hbytes, hbytes, offsetFrom_nextLine hrest.le, ih, length_append,
      Option.map_some, Nat.add_comm]
    intro line column
    rw [cons_append, singleton_append, Utf8.offset?, if_pos (joins_eq hcode hcode' ▸ hjoin)]
    rfl
  | @line p q c pre post hc hnext hrest ih =>
    obtain ⟨b, hb, hcode, hend⟩ := exists_utf8EncodeChar_lineEnd hc
    have hbytes : ∀ cs, encode (c :: cs) = [b] ++ encode cs := fun cs => by rw [encode_cons, hb]
    rw [cons_append, hbytes, hbytes, offsetFrom_nextLine hrest.le, ih, length_append,
      Option.map_some, Nat.add_comm]
    intro line column
    rw [singleton_append]
    cases hmore : Utf8.encode (pre ++ post) with
    | nil => simp [Utf8.offset?, hend]
    | cons b' more =>
      have hjoin : Utf8.joins b b' = false := joins_head hcode hnext b' (by rw [hmore]; rfl)
      rw [Utf8.offset?, hjoin, if_neg Bool.false_ne_true, if_pos hend]
      rfl

theorem Leads.offset?_eq (h : Leads {} pre post q) :
    q.offset? (Utf8.encode (pre ++ post)) = some (Utf8.encode pre).length := by
  rw [← h.offsetFrom_eq, offsetFrom, Nat.sub_zero, Nat.sub_zero, ite_self]
  rfl

end Glyph

end LuaAnalysis
