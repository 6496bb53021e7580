import Mathlib
import LuaAnalysis.Proofs.Token.Spacing

/-!
# Which numerals are read

A numeral of Lua has digits before or behind an optional point, and an optional exponent. The
numerals that are read are those, but a hexadecimal one may have no digits at all, and its exponent
has to fit 32 bits (`token_number_iff`).
-/

namespace LuaAnalysis

open List

namespace Numeral

variable {c mark : Char} {cs a whole : List Char} {b? fraction exponent : Option (List Char)}
  {digit : Char → Bool}

/-- Two texts with a character between them, or the first one alone. -/
def joined (c : Char) (a : List Char) : Option (List Char) → List Char
  | none => a
  | some b => a ++ c :: b

theorem cutAt_joined (h : c ∉ a) : cutAt c (joined c a b?) = (a, b?) := by
  have hall : ∀ x ∈ a, (x != c) = true := fun x hx => bne_iff_ne.2 (ne_of_mem_of_not_mem hx h)
  cases b? with
  | none =>
    have hdrop := @dropWhile_append_of_pos _ _ a [] hall
    rw [append_nil, dropWhile_nil] at hdrop
    rw [cutAt, joined, hdrop]
  | some b =>
    have hdrop : (a ++ c :: b).dropWhile (· != c) = c :: b := by simp [dropWhile_append_of_pos hall]
    rw [cutAt, joined, hdrop, takeWhile_append_of_pos hall]
    simp

theorem joined_cutAt (c : Char) (cs : List Char) : joined c (cutAt c cs).1 (cutAt c cs).2 = cs := by
  cases hdrop : cs.dropWhile (· != c) with
  | nil => rw [cutAt, hdrop, joined]
  | cons x rest =>
    have hx : x = c := by simpa [hdrop] using head?_dropWhile_not (· != c) cs
    have hcut : cutAt c cs = (cs.takeWhile (· != c), some rest) := by rw [cutAt, hdrop]
    rw [hcut, joined, ← hx, ← hdrop, hx, takeWhile_append_dropWhile]

/-- At least one decimal digit, with an optional sign. -/
def IsSigned (cs : List Char) : Prop :=
  ∃ ds, (cs = ds ∨ cs = '+' :: ds ∨ cs = '-' :: ds) ∧ ds ≠ [] ∧ ∀ d ∈ ds, d.isDigit = true

theorem isSome_ofDigits? : (ofDigits? cs).isSome = true ↔ cs ≠ [] ∧ ∀ d ∈ cs, d.isDigit = true := by
  rw [ofDigits?]
  split <;> simp_all

theorem isSome_ofSigned? : (ofSigned? cs).isSome = true ↔ IsSigned cs := by
  have hplus : '+'.isDigit = false ∧ '-'.isDigit = false := by decide
  unfold ofSigned? IsSigned
  split <;> simp only [Option.isSome_map, bind_pure_comp, Option.map_eq_map, isSome_ofDigits?]
  · refine ⟨fun h => ⟨_, .inr (.inl rfl), h⟩, ?_⟩
    rintro ⟨ds, rfl | heq | heq, hds⟩ <;> simp_all
  · refine ⟨fun h => ⟨_, .inr (.inr rfl), h⟩, ?_⟩
    rintro ⟨ds, rfl | heq | heq, hds⟩ <;> simp_all
  · refine ⟨fun h => ⟨_, .inl rfl, h⟩, ?_⟩
    rintro ⟨ds, rfl | heq | heq, hds⟩ <;> simp_all

/-- A text is spelled as digits around an optional point, with an optional exponent. -/
structure Spelled (digit : Char → Bool) (mark : Char) (whole : List Char)
    (fraction exponent : Option (List Char)) (cs : List Char) : Prop where
  text : cs = joined mark (joined '.' whole fraction) exponent
  digits : ∀ d ∈ whole ++ fraction.getD [], digit d = true
  signed : ∀ e ∈ exponent, IsSigned e

/-- The parts of a spelled text are found by cutting it. -/
theorem exists_spelled_iff (hmark : digit mark = false ∧ mark ≠ '.') (hpoint : digit '.' = false)
    {P : List Char → Option (List Char) → Option (List Char) → Prop} :
    (∃ whole fraction exponent, Spelled digit mark whole fraction exponent cs ∧
      P whole fraction exponent) ↔
      (∀ d ∈ (cutAt '.' (cutAt mark cs).1).1 ++ (cutAt '.' (cutAt mark cs).1).2.getD [],
        digit d = true) ∧
        (∀ e ∈ (cutAt mark cs).2, IsSigned e) ∧
        P (cutAt '.' (cutAt mark cs).1).1 (cutAt '.' (cutAt mark cs).1).2 (cutAt mark cs).2 := by
  constructor
  · rintro ⟨whole, fraction, exponent, ⟨rfl, hdigits, hsigned⟩, hP⟩
    have hnot : ∀ d, digit d = false → d ∉ whole ++ fraction.getD [] := by
      intro d hd hmem
      rw [hdigits d hmem] at hd
      cases hd
    have hfirst : mark ∉ joined '.' whole fraction := by
      have := hnot mark hmark.1
      cases fraction <;> simp_all [joined]
    have hwhole : '.' ∉ whole := fun hmem => hnot '.' hpoint (mem_append_left _ hmem)
    rw [cutAt_joined hfirst, cutAt_joined hwhole]
    exact ⟨hdigits, hsigned, hP⟩
  · rintro ⟨hdigits, hsigned, hP⟩
    exact ⟨_, _, _, ⟨by rw [joined_cutAt, joined_cutAt], hdigits, hsigned⟩, hP⟩

/-! ## What is read -/

def IsDecimal (cs : List Char) : Prop :=
  ∃ whole fraction exponent, Spelled Char.isDigit 'e' whole fraction exponent cs ∧
    whole ++ fraction.getD [] ≠ []

/-- The exponent fits 32 bits. -/
def Fits (exponent : Option (List Char)) : Prop :=
  ∀ e ∈ exponent, ∃ i ∈ ofSigned? e, -0x80000000 ≤ i ∧ i < 0x80000000

/-- What may stand behind `0x`. -/
def IsHex (cs : List Char) : Prop :=
  ∃ whole fraction exponent, Spelled isHexDigit 'p' whole fraction exponent cs ∧ Fits exponent

theorem isSome_bind_iff {α β : Type} {x : Option α} {f : α → Option β} {P : Prop}
    (h : ∀ a, (f a).isSome = true ↔ P) : (x >>= f).isSome = true ↔ x.isSome = true ∧ P := by
  cases x <;> simp [h]

theorem isSome_decimal? : (decimal? cs).isSome = true ↔ IsDecimal cs := by
  rw [IsDecimal, exists_spelled_iff (by decide) (by decide), decimal?]
  generalize cutAt 'e' cs = parts
  obtain ⟨mantissa, exponent⟩ := parts
  dsimp only
  generalize cutAt '.' mantissa = parts
  obtain ⟨whole, fraction⟩ := parts
  have hdigits : ∀ i : Int, (ofDigits? (whole ++ fraction.getD []) >>= fun m =>
      some (Binary64.ofDecimal m (i - (fraction.getD []).length))).isSome = true ↔
        whole ++ fraction.getD [] ≠ [] ∧ ∀ d ∈ whole ++ fraction.getD [], d.isDigit = true := by
    intro i
    rw [isSome_bind_iff (P := True) fun _ => by simp, and_true, isSome_ofDigits?]
  cases exponent with
  | none => exact (hdigits 0).trans ⟨fun h => ⟨h.2, nofun, h.1⟩, fun h => ⟨h.2.2, h.1⟩⟩
  | some e =>
    refine (isSome_bind_iff hdigits).trans ?_
    rw [isSome_ofSigned?]
    simp only [Option.mem_some_iff, forall_eq']
    exact ⟨fun ⟨hs, hne, hd⟩ => ⟨hd, hs, hne⟩, fun ⟨hd, hs, hne⟩ => ⟨hs, hne, hd⟩⟩

theorem isSome_foldlM {α : Type} (f : α → Nat → α) (v : α) :
    (cs.foldlM (fun v c => (digitValue? c).map (f v)) v).isSome = true ↔
    ∀ c ∈ cs, isHexDigit c = true := by
  induction cs generalizing v with
  | nil => simp
  | cons c cs ih =>
    rw [foldlM_cons, forall_mem_cons, isHexDigit]
    cases digitValue? c with
    | none => simp
    | some d => simpa using ih _

theorem isSome_addHexFraction? (v scale : Float) :
    (addHexFraction? v scale cs).isSome = true ↔ ∀ c ∈ cs, isHexDigit c = true := by
  induction cs generalizing v scale with
  | nil => simp [addHexFraction?]
  | cons c cs ih =>
    rw [addHexFraction?, forall_mem_cons, isHexDigit]
    cases digitValue? c with
    | none => simp
    | some d => simpa using ih _ _

theorem isSome_hexExponent? : (hexExponent? exponent).isSome = true ↔ Fits exponent := by
  cases exponent with
  | none => simp [hexExponent?, Fits]
  | some e => cases h : ofSigned? e <;> simp [hexExponent?, Fits, Option.filter, h]

theorem Fits.isSigned (h : Fits exponent) : ∀ e ∈ exponent, IsSigned e := by
  intro e he
  obtain ⟨i, hi, -⟩ := h e he
  rw [← isSome_ofSigned?, Option.mem_def.1 hi]
  rfl

theorem isSome_hexFloat? : (hexFloat? cs).isSome = true ↔ IsHex cs := by
  rw [IsHex, exists_spelled_iff (by decide) (by decide), hexFloat?]
  generalize cutAt 'p' cs = parts
  obtain ⟨mantissa, exponent⟩ := parts
  dsimp only
  generalize cutAt '.' mantissa = parts
  obtain ⟨whole, fraction⟩ := parts
  have hfraction :
    ∀ (e : Int) (v : Float), (addHexFraction? v (1 / 16) (fraction.getD []) >>= fun v =>
      some (v * twoPower e)).isSome = true ↔ ∀ c ∈ fraction.getD [], isHexDigit c = true := by
    intro e v
    rw [isSome_bind_iff (P := True) fun _ => by simp, and_true, isSome_addHexFraction?]
  refine (isSome_bind_iff fun e => isSome_bind_iff (hfraction e)).trans ?_
  rw [hexWhole?,
    isSome_foldlM fun v d => v * 16 + d.toFloat, isSome_hexExponent?, ← forall_mem_append]
  exact ⟨fun ⟨hf, hd⟩ => ⟨hd, hf.isSigned, hf⟩, fun ⟨hd, _, hf⟩ => ⟨hf, hd⟩⟩

theorem hexWord?_eq (h : ∀ c ∈ cs, isHexDigit c = true) :
    hexWord? cs = some (UInt64.ofNat (Lexer.hexValue cs)) := by
  have hfrom : ∀ n : Nat, cs.foldlM (fun (n : UInt64) c => (digitValue? c).map fun d =>
    n * 16 + d.toUInt64) (UInt64.ofNat n) =
      some (UInt64.ofNat (cs.foldl (fun n c => n * 16 + (digitValue? c).getD 0) n)) := by
    induction cs with
    | nil => exact fun _ => rfl
    | cons c cs ih =>
      rw [forall_mem_cons] at h
      obtain ⟨d, hd⟩ := Option.isSome_iff_exists.1 h.1
      intro n
      rw [foldlM_cons, foldl_cons, hd, ← ih h.2]
      simp
  exact hfrom 0

theorem not_isDecimal_hex : ¬ IsDecimal ('0' :: 'x' :: cs) := by
  rintro ⟨whole, fraction, exponent, ⟨htext, hdigits, -⟩, -⟩
  rcases whole with - | ⟨d, - | ⟨d', ds⟩⟩
  · cases fraction <;> cases exponent <;> simp [joined] at htext
  · cases fraction <;> cases exponent <;> simp [joined] at htext
  · have hx : 'x' = d' := by
      cases fraction <;> cases exponent <;> exact (List.cons.inj (List.cons.inj htext).2).1
    have hdigit := hdigits d' (by simp)
    rw [← hx] at hdigit
    exact absurd hdigit (by decide)

theorem isSome_ofLower? : (ofLower? cs).isSome = true ↔ (∃ hs, cs = '0' :: 'x' :: hs ∧ IsHex hs) ∨
    IsDecimal cs := by
  unfold ofLower?
  split
  · rename_i hs
    have hhex : (∃ hs', '0' :: 'x' :: hs = '0' :: 'x' :: hs' ∧ IsHex hs') ↔ IsHex hs := by simp
    rw [hhex, or_iff_left not_isDecimal_hex]
    split
    · rw [Option.isSome_map, isSome_hexFloat?]
    · rename_i hplain
      simp only [any_eq_true, not_exists, not_and, Bool.or_eq_true, beq_iff_eq, not_or] at hplain
      have hcut : cutAt 'p' hs = (hs, none) :=
        @cutAt_joined 'p' hs none fun hmem => (hplain _ hmem).2 rfl
      have hpoint : cutAt '.' hs = (hs, none) :=
        @cutAt_joined '.' hs none fun hmem => (hplain _ hmem).1 rfl
      rw [IsHex, exists_spelled_iff (by decide) (by decide), hcut, hpoint,
        Option.isSome_map, hexWord?, isSome_foldlM fun n d => n * 16 + d.toUInt64]
      simp [Fits]
  · rename_i hplain
    rw [Option.isSome_map, isSome_decimal?]
    exact ⟨.inr, fun h => h.resolve_left fun ⟨hs, heq, _⟩ => hplain hs heq⟩

/-- A hexadecimal integer is its value modulo two to the 64, read as signed. -/
theorem ofLower?_hex (h : ∀ c ∈ cs, isHexDigit c = true) :
    ∃ w : Int64, ofLower? ('0' :: 'x' :: cs) = some ⟨w.toFloat.toBits, false⟩ ∧
      w.toInt = (Lexer.hexValue cs : Int).bmod (2 ^ 64) := by
  have hplain : (cs.any fun c => c == '.' || c == 'p') = false := by
    rw [any_eq_false]
    intro c hc hmark
    have hdigit := h c hc
    rcases Bool.or_eq_true _ _ ▸ hmark with heq | heq <;> rw [beq_iff_eq.1 heq] at hdigit <;>
      exact absurd hdigit (by decide)
  refine ⟨(UInt64.ofNat (Lexer.hexValue cs)).toInt64, ?_, ?_⟩
  · rw [ofLower?, hplain, hexWord?_eq h]
    rfl
  · simp

end Numeral

namespace Lexer

open Numeral

variable {g : Glyph} {gs : List Glyph}

theorem isNameStart_of_startsNumeral (h : startsNumeral g.char gs = true) :
    isNameStart g.char = false := by
  rw [startsNumeral, Bool.or_eq_true, Bool.and_eq_true, beq_iff_eq] at h
  rcases h with hdigit | ⟨hpoint, -⟩
  · simp only [Char.isDigit, Bool.and_eq_true, decide_eq_true_eq, UInt32.le_iff_toNat_le] at hdigit
    cases hstart : isNameStart g.char with
    | false => rfl
    | true =>
      rw [isNameStart, Bool.or_eq_true, beq_iff_eq, Char.isAlpha, Bool.or_eq_true] at hstart
      simp only [Char.isUpper, Char.isLower, Bool.and_eq_true, decide_eq_true_eq, ge_iff_le,
        UInt32.le_iff_toNat_le] at hstart
      rcases hstart with hletter | hscore
      · grind
      · rw [hscore] at hdigit
        exact absurd hdigit (by decide)
  · rw [hpoint]
    decide

theorem token_numeral_cases (h : startsNumeral g.char gs = true) :
    ((Glyph.takeWhile isNameStart ((g :: gs).drop (numeralLexeme (g :: gs)).length)).isEmpty =
      false ∧
        token g gs = .error ⟨(numeralLexeme (g :: gs)).length, .malformedNumber⟩) ∨
      (Glyph.takeWhile isNameStart ((g :: gs).drop (numeralLexeme (g :: gs)).length)).isEmpty =
        true ∧
        ((∃ n, ofLexeme? (numeralLexeme (g :: gs)) = some n ∧
            token g gs = .ok (.number n, (numeralLexeme (g :: gs)).length)) ∨
          ofLexeme? (numeralLexeme (g :: gs)) = none ∧ token g gs =
            .error ⟨(numeralLexeme (g :: gs)).length,
              .malformedNumeral (String.ofList (numeralLexeme (g :: gs)))⟩) := by
  rw [token, isNameStart_of_startsNumeral h, h, number]
  cases (Glyph.takeWhile isNameStart ((g :: gs).drop (numeralLexeme (g :: gs)).length)).isEmpty with
  | false => exact .inl ⟨rfl, rfl⟩
  | true =>
    cases ofLexeme? (numeralLexeme (g :: gs)) with
    | none => exact .inr ⟨rfl, .inr ⟨rfl, rfl⟩⟩
    | some n => exact .inr ⟨rfl, .inl ⟨n, rfl, rfl⟩⟩

/-- A token that starts like a numeral is a number exactly if no name follows the longest run of the
characters of numerals and the run is a decimal numeral or a hexadecimal one, which may have no
digits but whose exponent has to fit. Otherwise it is malformed. -/
theorem token_number_iff (g : Glyph) (gs : List Glyph) (h : startsNumeral g.char gs = true) :
    let lexeme := numeralLexeme (g :: gs)
    let text := lexeme.map Char.toLower
    ((∃ n, token g gs = .ok (.number n, lexeme.length)) ↔
        (Glyph.takeWhile isNameStart ((g :: gs).drop lexeme.length)).isEmpty = true ∧
          ((∃ hs, text = '0' :: 'x' :: hs ∧ IsHex hs) ∨ IsDecimal text)) ∧
      ((∃ n, token g gs = .ok (.number n, lexeme.length)) ∨
        token g gs = .error ⟨lexeme.length, .malformedNumber⟩ ∨
        token g gs = .error ⟨lexeme.length, .malformedNumeral (String.ofList lexeme)⟩) ∧
      ∀ hs, text = '0' :: 'x' :: hs → (∀ c ∈ hs, isHexDigit c = true) → ∃ w : Int64,
        ofLexeme? lexeme = some ⟨w.toFloat.toBits, false⟩ ∧
        w.toInt = (hexValue hs : Int).bmod (2 ^ 64) := by
  intro lexeme text
  have hread : (ofLexeme? lexeme).isSome = true ↔ (∃ hs, text = '0' :: 'x' :: hs ∧ IsHex hs) ∨
    IsDecimal text :=
    isSome_ofLower?
  refine ⟨?_, ?_, fun hs heq hdigits => ?_⟩
  · rw [← hread]
    rcases token_numeral_cases h with ⟨hname, ht⟩ | ⟨hname, ⟨n, hn, ht⟩ | ⟨hn, ht⟩⟩
    · simp [lexeme, hname, ht]
    · simp [lexeme, hname, hn, ht]
    · simp [lexeme, hn, ht]
  · rcases token_numeral_cases h with ⟨-, ht⟩ | ⟨-, ⟨n, -, ht⟩ | ⟨-, ht⟩⟩
    · exact .inr (.inl ht)
    · exact .inl ⟨n, ht⟩
    · exact .inr (.inr ht)
  · have hlower : ofLexeme? lexeme = ofLower? ('0' :: 'x' :: hs) := congrArg ofLower? heq
    rw [hlower]
    exact ofLower?_hex hdigits

def glyph (c : Char) : Glyph :=
  { char := c, range := default }

theorem token_number_iff_hexInteger : startsNumeral '0' (['x', 'F', 'f'].map glyph) = true ∧
    ∃ w : Int64,
    ofLexeme? ['0', 'x', 'F', 'f'] = some ⟨w.toFloat.toBits, false⟩ ∧ w.toInt = 255 := by
  have h : startsNumeral '0' (['x', 'F', 'f'].map glyph) = true := by decide
  obtain ⟨w, hread, hvalue⟩ :=
    (token_number_iff (glyph '0') _ h).2.2 ['f', 'f'] (by decide) (all_eq_true.1 rfl)
  exact ⟨h, w, hread, hvalue.trans (by decide +kernel)⟩

/-- A hexadecimal numeral of Lua has a digit, but `0x` is read as a number. -/
theorem token_hexWithoutDigits : (∃ n, token (glyph '0') [glyph 'x'] = .ok (.number n, 2)) ∧
    ∀ whole fraction exponent, Spelled isHexDigit 'p' whole fraction exponent [] →
      whole ++ fraction.getD [] = [] := by
  constructor
  · have hstart : startsNumeral (glyph '0').char [glyph 'x'] = true := by decide
    rcases token_numeral_cases hstart with ⟨hname, -⟩ | ⟨-, ⟨n, -, hread⟩ | ⟨hnone, -⟩⟩
    · exact absurd hname (by decide)
    · exact ⟨n, hread⟩
    · exact absurd (congrArg Option.isSome hnone) (by decide)
  · rintro whole fraction exponent ⟨htext, -, -⟩
    cases fraction <;> cases exponent <;> simp_all [joined]

end Lexer

end LuaAnalysis
