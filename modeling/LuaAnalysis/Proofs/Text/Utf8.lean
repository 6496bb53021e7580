import LuaAnalysis.Text.Utf8

/-!
# Encoded text is decoded again

Decoding goes by numbers: the first byte of a sequence tells its length, and what the second byte
may be leaves out the numbers that no character has. A character is encoded by exactly such a
sequence, so decoding the bytes of a text gives the text, without a single replacement character
(`decodeLossy_encode`).
-/

namespace LuaAnalysis.Utf8

open List

variable {cs : List Char} {rest : List UInt8} {n : Nat}

theorem encode_append {ds : List Char} : encode (cs ++ ds) = encode cs ++ encode ds :=
  flatMap_append

theorem encode_cons {c : Char} : encode (c :: cs) = String.utf8EncodeChar c ++ encode cs :=
  flatMap_cons

/-! ## Bytes as numbers -/

theorem toNat_ofNat (h : n < 256) : (UInt8.ofNat n).toNat = n := by
  rw [UInt8.toNat_ofNat']
  omega

theorem between_iff (lo b hi : UInt8) : (lo ≤ b && b ≤ hi) = true ↔ lo.toNat ≤ b.toNat ∧
    b.toNat ≤ hi.toNat := by
  rw [Bool.and_eq_true, decide_eq_true_iff, decide_eq_true_iff, UInt8.le_iff_toNat_le,
    UInt8.le_iff_toNat_le]

/-- Overlong forms, surrogates and numbers beyond Unicode are excluded by the second byte. -/
theorem allowsSecond_iff : allowsSecond b c = true ↔ (0x80 ≤ c.toNat ∧ c.toNat ≤ 0xBF) ∧
    (b.toNat = 0xE0 → 0xA0 ≤ c.toNat) ∧
      (b.toNat = 0xED → c.toNat ≤ 0x9F) ∧ (b.toNat = 0xF0 → 0x90 ≤ c.toNat) ∧
      (b.toNat = 0xF4 → c.toNat ≤ 0x8F) := by
  simp only [allowsSecond, isContinuation, beq_iff_eq, ← UInt8.toNat_inj, Bool.and_eq_true,
    decide_eq_true_iff, UInt8.le_iff_toNat_le, UInt8.reduceToNat, Bool.ite_eq_true_distrib]
  split
  · omega
  split
  · omega
  split
  · omega
  split <;> omega

theorem not_between {lo hi : UInt8} (h : hi.toNat < b.toNat) : ¬ (lo ≤ b && b ≤ hi) = true := by
  rw [between_iff]
  omega

/-! ## Sequences of each length -/

variable {b c d e : UInt8}

theorem decodeStep_one (hb : b.toNat < 0x80) : decodeStep b rest = (Char.ofNat b.toNat, 0) :=
  if_pos (UInt8.lt_iff_toNat_lt.2 hb)

theorem not_one (hb : 0x80 ≤ b.toNat) : ¬ b < 0x80 :=
  fun h => Nat.not_lt.2 hb (UInt8.lt_iff_toNat_lt.1 h)

theorem decodeStep_two (hb : 0xC2 ≤ b.toNat ∧ b.toNat ≤ 0xDF) (hc : isContinuation c = true) :
    decodeStep b (c :: rest) = (Char.ofNat (b.toNat % 32 * 64 + payload c), 1) := by
  rw [decodeStep, if_neg (not_one (by omega)), if_pos ((between_iff 0xC2 b 0xDF).2 hb), if_pos hc]

theorem decodeStep_three (hb : 0xE0 ≤ b.toNat ∧ b.toNat ≤ 0xEF) (hc : allowsSecond b c = true)
    (hd : isContinuation d = true) :
    decodeStep b (c :: d :: rest) =
      (Char.ofNat (b.toNat % 16 * 4096 + payload c * 64 + payload d), 2) := by
  have htwo : (0xDF : UInt8).toNat < b.toNat := Nat.lt_of_lt_of_le (by decide) hb.1
  rw [decodeStep, if_neg (not_one (by omega)), if_neg (not_between htwo),
    if_pos ((between_iff 0xE0 b 0xEF).2 hb)]
  dsimp only
  rw [hc, hd]
  rfl

theorem decodeStep_four (hb : 0xF0 ≤ b.toNat ∧ b.toNat ≤ 0xF4) (hc : allowsSecond b c = true)
    (hd : isContinuation d = true) (he : isContinuation e = true) :
    decodeStep b (c :: d :: e :: rest) =
      (Char.ofNat (b.toNat % 8 * 262144 + payload c * 4096 + payload d * 64 + payload e), 3) := by
  have htwo : (0xDF : UInt8).toNat < b.toNat := Nat.lt_of_lt_of_le (by decide) hb.1
  have hthree : (0xEF : UInt8).toNat < b.toNat := Nat.lt_of_lt_of_le (by decide) hb.1
  rw [decodeStep, if_neg (not_one (by omega)), if_neg (not_between htwo),
    if_neg (not_between hthree), if_pos ((between_iff 0xF0 b 0xF4).2 hb)]
  dsimp only
  rw [hc, hd, he]
  rfl

theorem isContinuation_ofNat : isContinuation (UInt8.ofNat (n % 64 + 128)) = true := by
  rw [isContinuation, between_iff, toNat_ofNat (by omega)]
  change 0x80 ≤ _ ∧ _ ≤ 0xBF
  omega

theorem payload_ofNat : payload (UInt8.ofNat (n % 64 + 128)) = n % 64 := by
  rw [payload, toNat_ofNat (by omega)]
  omega

/-! ## Characters -/

/-- The decoder reads back one encoded character, whatever follows it. -/
theorem decodeStep_utf8EncodeChar {ch : Char} :
    ∃ b more, String.utf8EncodeChar ch = b :: more ∧
      decodeStep b (more ++ rest) = (ch, more.length) := by
  have hvalid : ch.toNat < 0xD800 ∨ 0xDFFF < ch.toNat ∧ ch.toNat < 0x110000 := ch.valid
  have hcode : ch.val.toNat = ch.toNat := rfl
  have hback := Char.ofNat_toNat ch
  unfold String.utf8EncodeChar
  dsimp only
  rw [hcode]
  generalize ch.toNat = n at hvalid hback
  split
  · refine ⟨_, _, rfl, ?_⟩
    have hb := toNat_ofNat (n := n) (by omega)
    rw [decodeStep_one (by omega), hb, hback]
    rfl
  split
  · refine ⟨_, _, rfl, ?_⟩
    have hb := toNat_ofNat (n := n / 64 % 32 + 192) (by omega)
    have hn : (n / 64 % 32 + 192) % 32 * 64 + n % 64 = n := by omega
    rw [singleton_append, decodeStep_two (by omega) isContinuation_ofNat, payload_ofNat, hb,
      hn, hback]
    rfl
  split
  · refine ⟨_, _, rfl, ?_⟩
    have hb := toNat_ofNat (n := n / 4096 % 16 + 224) (by omega)
    have hc := toNat_ofNat (n := n / 64 % 64 + 128) (by omega)
    have hn : (n / 4096 % 16 + 224) % 16 * 4096 + n / 64 % 64 * 64 + n % 64 = n := by omega
    have hsecond : allowsSecond (UInt8.ofNat (n / 4096 % 16 + 224))
        (UInt8.ofNat (n / 64 % 64 + 128)) = true := by
      rw [allowsSecond_iff, hb, hc]
      omega
    rw [cons_append, singleton_append, decodeStep_three (by omega) hsecond isContinuation_ofNat,
      payload_ofNat, payload_ofNat, hb, hn, hback]
    rfl
  · refine ⟨_, _, rfl, ?_⟩
    have hb := toNat_ofNat (n := n / 262144 % 8 + 240) (by omega)
    have hc := toNat_ofNat (n := n / 4096 % 64 + 128) (by omega)
    have hn : (n / 262144 % 8 + 240) % 8 * 262144 + n / 4096 % 64 * 4096 + n / 64 % 64 * 64 + n %
      64 = n := by omega
    have hsecond : allowsSecond (UInt8.ofNat (n / 262144 % 8 + 240))
        (UInt8.ofNat (n / 4096 % 64 + 128)) = true := by
      rw [allowsSecond_iff, hb, hc]
      omega
    rw [cons_append, cons_append, singleton_append,
      decodeStep_four (by omega) hsecond isContinuation_ofNat isContinuation_ofNat, payload_ofNat,
      payload_ofNat, payload_ofNat, hb, hn, hback]
    rfl

/-! ## Texts -/

theorem decodeFrom_drop (skip : Nat) {bytes : List UInt8} :
    decodeFrom skip bytes = decodeFrom 0 (bytes.drop skip) := by
  induction bytes generalizing skip with
  | nil => rw [drop_nil, decodeFrom, decodeFrom]
  | cons b bytes ih =>
    cases skip with
    | zero => rfl
    | succ skip => rw [drop_succ_cons, ← ih, decodeFrom]

/-- Decoding is the inverse of encoding on valid text. -/
theorem decodeLossy_encode : decodeLossy (encode cs) = cs := by
  induction cs with
  | nil => rfl
  | cons ch cs ih =>
    obtain ⟨b, more, hbytes, hstep⟩ := decodeStep_utf8EncodeChar
    rw [encode_cons, hbytes, cons_append, decodeLossy, decodeFrom, hstep, decodeFrom_drop,
      drop_left]
    exact congrArg _ ih

end LuaAnalysis.Utf8
