import LuaAnalysis.Proofs.Text.Pieces
import LuaAnalysis.Types.ValueKind
import Mathlib.Data.List.Induction

/-!
# How types flow into unions and optional types

Compatibility is decided by cutting texts at separators, after blanks around them are dropped. Still
it follows the meaning of the separators: a union takes what one of its sides takes, and an optional
type takes nil and what the type takes, wherever the separators stand and whatever blanks stand
around them (`compatible_homomorphism`).
-/

namespace LuaAnalysis

open List hiding dropSuffix? splitOn

/-! ## Unions and optional types -/

variable {x : List Char}

namespace Types

open Text

variable {e a x y : List Char} {c : Char}

/-- Whether nothing is refused of a type. -/
def isLenient (a : List Char) : Bool :=
  a.isEmpty || isAny a || a.contains '|' || a.getLast? == some '?'

theorem compatible_of_isLenient (h : isLenient a = true) : compatibleTrimmed e a = true := by
  fun_induction compatibleTrimmed e a with
  | case1 => rfl
  | case2 => rfl
  | case3 e _ _ inner hinner ih => simp [ih]
  | case4 e _ _ _ hbar ih =>
    obtain ⟨m, hm⟩ := exists_mem_of_ne_nil _ (splitOn_ne_nil (· == '|') e)
    exact any_eq_true.2 ⟨⟨m, hm⟩, mem_attach _ _, ih m hm⟩
  | case5 => rfl
  | case6 e h₁ h₂ _ _ h₃ =>
    simp_all [isLenient]

/-- Whether a value of type `actual` may stand where `x` is declared, which may have blanks around
it. -/
def allows (x a : List Char) : Bool :=
  compatibleTrimmed (trim x) a

theorem allows_of_isLenient (h : isLenient a = true) : allows x a = true :=
  compatible_of_isLenient h

theorem compatibleTrimmed_eq (h : isLenient a = false) :
    compatibleTrimmed e a =
      if e.isEmpty || isAny e then true
      else
        match dropSuffix? ['?'] e with
        | some inner => a == "nil".toList || allows inner a
        | none => if e.any (· == '|') then (splitOn (· == '|') e).any
            (allows · a) else plainCompatible e a := by
  simp only [isLenient, Bool.or_eq_false_iff] at h
  obtain ⟨⟨⟨hempty, hany⟩, hbar⟩, hlast⟩ := h
  rw [compatibleTrimmed, hempty, hany, hbar, hlast]
  cases he : e.isEmpty <;> cases he' : isAny e
  · simp only [Bool.or_false, Bool.false_eq_true, if_false]
    split
    · rename_i inner h
      simp only [h, allows]
    · rename_i h
      simp only [h, allows]
      split
      · rw [Bool.eq_iff_iff]
        simp
      · rfl
  all_goals rfl

theorem isAny_concat (h : c ≠ 'y' ∧ c ≠ 'n') : isAny (x ++ [c]) = false := by
  have hne : ∀ t : List Char, t.getLast? ≠ some c → (x ++ [c] == t) = false := by
    intro t ht
    rw [beq_eq_false_iff_ne]
    rintro rfl
    simp at ht
  rw [isAny, hne _ (by simpa using h.1.symm), hne _ (by simpa using h.2.symm)]
  rfl

theorem allows_concat_optional : allows (x ++ ['?']) a = (a == "nil".toList || allows x a) := by
  cases ha : isLenient a with
  | true => simp [allows_of_isLenient ha]
  | false =>
    rw [allows, trim_concat (by decide), compatibleTrimmed_eq ha, isAny_concat (by decide),
      dropSuffix?_concat]
    simp [allows, trim_dropWhile]

theorem ne_bar_of_isBlank (h : isBlank c = true) : (c == '|') = false := by
  rw [beq_eq_false_iff_ne]
  rintro rfl
  cases h

theorem isAny_of_bar (h : x.any (· == '|') = true) : isAny x = false := by
  rw [Bool.eq_false_iff]
  intro hany
  rw [isAny, Bool.or_eq_true, beq_iff_eq, beq_iff_eq] at hany
  rcases hany with rfl | rfl <;> cases h

theorem any_splitOn_dropWhile :
    (splitOn (· == '|') (x.dropWhile isBlank)).any (allows · a) =
      (splitOn (· == '|') x).any (allows · a) := by
  induction x with
  | nil => rfl
  | cons c x ih =>
    cases hc : isBlank c with
    | false => rw [dropWhile_cons_of_neg (by simp [hc])]
    | true =>
      obtain ⟨m, ms, hx, hcx⟩ := splitOn_cons (x := x) (p := (· == '|')) (ne_bar_of_isBlank hc)
      rw [dropWhile_cons_of_pos hc, ih, hcx, hx]
      simp [allows, trim_cons_blank hc]

theorem allows_eq_any : allows x a = (splitOn (· == '|') x).any (allows · a) := by
  cases ha : isLenient a with
  | true =>
    obtain ⟨m, hm⟩ := exists_mem_of_ne_nil _ (splitOn_ne_nil (· == '|') x)
    rw [allows_of_isLenient ha, Eq.comm, any_eq_true]
    exact ⟨m, hm, allows_of_isLenient ha⟩
  | false =>
    induction x using List.reverseRecOn with
    | nil => simp [splitOn]
    | append_singleton x c ih =>
      cases hc : isBlank c with
      | true =>
        obtain ⟨ms, m, hx, hxc⟩ := splitOn_concat (x := x) (p := (· == '|')) (ne_bar_of_isBlank hc)
        rw [hxc, allows, trim_concat_blank hc, ← allows, ih, hx]
        simp [allows, trim_concat_blank hc]
      | false =>
        by_cases hopt : c = '?'
        · subst hopt
          obtain ⟨ms, m, hx, hxc⟩ :=
            splitOn_concat (x := x) (p := (· == '|')) (c := '?') (by decide)
          rw [hxc, allows_concat_optional, ih, hx]
          simp only [any_append, any_cons, any_nil, Bool.or_false, allows_concat_optional]
          cases ms.any (allows · a) <;> simp
        · -- Nothing is dropped at the end, so that the text is cut at its bars, if it has any.
          rw [← any_splitOn_dropWhile, dropWhile_concat hc]
          cases hbar : (x.dropWhile isBlank ++ [c]).any (· == '|') with
          | false =>
            have hone := splitOn_eq_singleton fun d hd =>
              Bool.eq_false_iff.2 (any_eq_false.1 hbar d hd)
            rw [hone, any_cons, any_nil, Bool.or_false, ← dropWhile_concat hc, allows, allows,
              trim_dropWhile]
          | true =>
            rw [allows, trim_concat hc, compatibleTrimmed_eq ha, dropSuffix?_concat_ne hopt,
              isAny_of_bar hbar, hbar]
            simp

theorem allows_union : allows (x ++ '|' :: y) a = (allows x a || allows y a) := by
  rw [allows_eq_any, splitOn_append (by rfl), any_append, ← allows_eq_any, ← allows_eq_any]

/-! ## The same type, and types the other way round -/

theorem plainCompatible_self {t : List Char} : plainCompatible t t = true := by
  cases h : isPrimitive t <;> simp [plainCompatible, h]

theorem plainCompatible_comm {t u : List Char} : plainCompatible t u = plainCompatible u t := by
  cases h : isPrimitive t <;> cases h' : isPrimitive u <;>
    simp only [plainCompatible, h, h', Bool.and_comm, Bool.beq_comm]

/-- Names, which are neither unions nor optional, are compared as they are. -/
theorem compatibleTrimmed_of_name (hbar : x.contains '|' = false)
    (hlast : (x.getLast? == some '?') = false) :
    compatibleTrimmed x a = (isLenient x || isLenient a || plainCompatible x a) := by
  have hsuffix : dropSuffix? ['?'] x = none := by
    cases hx : dropSuffix? ['?'] x with
    | none => rfl
    | some y => simp [eq_append_of_dropSuffix? hx] at hlast
  have hany : x.any (· == '|') = false := by
    rw [any_beq']
    exact hbar
  cases ha : isLenient a with
  | true => rw [compatible_of_isLenient ha, Bool.or_true, Bool.true_or]
  | false =>
    rw [compatibleTrimmed_eq ha, hsuffix, isLenient, hbar, hlast]
    dsimp only
    rw [hany]
    cases x.isEmpty <;> cases isAny x <;> rfl

theorem compatibleTrimmed_self : compatibleTrimmed x x = true := by
  cases hx : isLenient x with
  | true => exact compatible_of_isLenient hx
  | false =>
    have hparts := hx
    simp only [isLenient, Bool.or_eq_false_iff] at hparts
    rw [compatibleTrimmed_of_name hparts.1.2 hparts.2, plainCompatible_self, Bool.or_true]

theorem compatibleTrimmed_comm (hx : ∀ c ∈ x, c ≠ '|' ∧ c ≠ '?') (hy : ∀ c ∈ y, c ≠ '|' ∧ c ≠ '?') :
    compatibleTrimmed x y = compatibleTrimmed y x := by
  have hname : ∀ {t : List Char}, (∀ c ∈ t, c ≠ '|' ∧ c ≠ '?') →
      t.contains '|' = false ∧ (t.getLast? == some '?') = false := by
    intro t ht
    refine ⟨?_, beq_eq_false_iff_ne.2 fun h => (ht _ (mem_of_getLast? h)).2 rfl⟩
    rw [contains_eq_mem, decide_eq_false_iff_not]
    exact fun h => (ht _ h).1 rfl
  rw [compatibleTrimmed_of_name (hname hx).1 (hname hx).2,
    compatibleTrimmed_of_name (hname hy).1 (hname hy).2, plainCompatible_comm,
    Bool.or_comm (isLenient x)]

theorem mem_of_mem_trim (h : c ∈ trim x) : c ∈ x := by
  rw [trim, dropEndWhile, mem_reverse] at h
  exact (dropWhile_suffix _).mem (mem_reverse.1 ((dropWhile_suffix _).mem h))

/-- A union takes what one of its sides takes, an optional type takes nil and what the type takes,
every type takes itself, and names take each other or neither takes the other. -/
theorem compatible_homomorphism (e₁ e₂ e a : String) :
    compatible (e₁ ++ "|" ++ e₂) a = (compatible e₁ a || compatible e₂ a) ∧
    compatible (e ++ "?") a = (trim a.toList == "nil".toList || compatible e a) ∧
    compatible e e = true ∧
    ((∀ c ∈ e.toList ++ a.toList, c ≠ '|' ∧ c ≠ '?') → compatible e a = compatible a e) := by
  refine ⟨?_, ?_, compatibleTrimmed_self, fun h => ?_⟩
  · have hsplit := @allows_union (trim a.toList) e₁.toList e₂.toList
    simpa [compatible, allows] using hsplit
  · have hoptional := @allows_concat_optional (trim a.toList) e.toList
    simpa [compatible, allows] using hoptional
  · exact compatibleTrimmed_comm (fun c hc => h c (mem_append_left _ (mem_of_mem_trim hc)))
      fun c hc => h c (mem_append_right _ (mem_of_mem_trim hc))

/-! ## Kinds of values -/

theorem trim_of_all (h : ∀ c ∈ x, isBlank c = false) : trim x = x := by
  have hdrop : ∀ y : List Char, (∀ c ∈ y, isBlank c = false) → y.dropWhile isBlank = y := by
    intro y hy
    cases y with
    | nil => rfl
    | cons c y => exact dropWhile_cons_of_neg (by simp [hy c mem_cons_self])
  rw [trim, hdrop x h, dropEndWhile, hdrop _ fun c hc => h c (mem_reverse.1 hc), reverse_reverse]

theorem dropEndWhile_concat {p : Char → Bool} :
    dropEndWhile p (x ++ [c]) = if p c then dropEndWhile p x else x ++ [c] := by
  cases hc : p c <;> simp [dropEndWhile, hc]

theorem getLast?_dropEndWhile : ((dropEndWhile (· == '?') x).getLast? == some '?') = false := by
  induction x using List.reverseRecOn with
  | nil => rfl
  | append_singleton x c ih =>
    rw [dropEndWhile_concat]
    split
    · exact ih
    · simp_all

theorem dropEndWhile_of_getLast? (h : (x.getLast? == some '?') = false) :
    dropEndWhile (· == '?') x = x := by
  cases x using List.reverseRecOn with
  | nil => rfl
  | append_singleton x c =>
    rw [dropEndWhile_concat, if_neg]
    simpa using h

theorem allows_of_dropEndWhile (h : allows (dropEndWhile (· == '?') x) a = true) :
    allows x a = true := by
  induction x using List.reverseRecOn with
  | nil => exact h
  | append_singleton x c ih =>
    rw [dropEndWhile_concat] at h
    split at h
    · rename_i hc
      rw [beq_iff_eq.1 hc, allows_concat_optional, ih h, Bool.or_true]
    · exact h

theorem plainCompatible_ofTypeName {t n : String}
    (h : (ValueKind.ofTypeName t).typeName? = some n) :
    (dropEndWhile (· == '?') t.toList).contains '|' = false ∧
      plainCompatible (dropEndWhile (· == '?') t.toList) n.toList = true ∧
      trim n.toList = n.toList ∧
      n.toList.contains '|' = false ∧ (n.toList.getLast? == some '?') = false := by
  have hclosed : ∀ {b : List Char} {s : String}, String.ofList b = s → b = s.toList := by
    rintro b s rfl
    simp
  rw [ValueKind.ofTypeName] at h
  generalize dropEndWhile (· == '?') t.toList = b at h ⊢
  split at h
  case h_11 hnil hboolean hnumber hinteger hstring hfunction hany hunknown huserdata hthread =>
    cases hbar : b.contains '|' with
    | true =>
      rw [hbar] at h
      cases h
    | false =>
      rw [hbar] at h
      obtain rfl : "table" = n := Option.some.inj h
      refine ⟨rfl, ?_, by decide⟩
      -- Every other primitive name has been matched before.
      have hother : isPrimitive b = true → b = "table".toList := by
        intro hprim
        simp only [isPrimitive, primitives, contains_eq_mem, decide_eq_true_eq, mem_cons,
          not_mem_nil, or_false] at hprim
        rcases hprim with rfl | rfl | rfl | rfl | rfl | rfl | rfl | rfl | rfl
        all_goals first | rfl | contradiction
      cases hprim : isPrimitive b with
      | true => rw [hother hprim]; exact plainCompatible_self
      | false =>
        have htable : isPrimitive "table".toList = true ∧
          isNumeric "table".toList = false := by decide
        rw [plainCompatible, hprim, htable.1, htable.2, Bool.and_false]
        rfl
  all_goals
    rename_i hb
    obtain rfl := hclosed hb
    first
    | cases h; decide
    | cases h

/-- A kind that was read from a type never conflicts with that type. -/
theorem compatible_ofTypeName {t n : String} (hblank : ∀ c ∈ t.toList, isBlank c = false)
    (h : (ValueKind.ofTypeName t).typeName? = some n) :
    compatible t n = true ∧ compatible n t = true := by
  obtain ⟨hbar, hplain, htrim, hbar', hlast'⟩ := plainCompatible_ofTypeName h
  have hsub : ∀ c ∈ dropEndWhile (· == '?') t.toList, isBlank c = false := by
    intro c hc
    rw [dropEndWhile, mem_reverse] at hc
    exact hblank c (mem_reverse.1 ((dropWhile_suffix _).mem hc))
  rw [compatible, compatible, htrim]
  constructor
  · apply allows_of_dropEndWhile
    rw [allows, trim_of_all hsub, compatibleTrimmed_of_name hbar getLast?_dropEndWhile, hplain,
      Bool.or_true]
  · rw [compatibleTrimmed_of_name hbar' hlast', trim_of_all hblank]
    -- An optional type is lenient, and any other is the name that the kind was read from.
    cases hlast : t.toList.getLast? == some '?' with
    | true => simp [isLenient, beq_iff_eq.1 hlast]
    | false =>
      rw [dropEndWhile_of_getLast? hlast] at hplain
      rw [plainCompatible_comm, hplain, Bool.or_true]

theorem compatible_ofTypeName_optional :
    (ValueKind.ofTypeName "integer??").typeName? = some "number" ∧
    compatible "integer??" "number" = true ∧
      compatible "number" "integer??" = true :=
  ⟨by decide, compatible_ofTypeName (by simp; decide) (by decide)⟩

end Types

end LuaAnalysis
