import LuaAnalysis.Types.Compatible

/-!
# Blanks and pieces of texts

What trimming leaves of a text that gets one character more, and where a text is cut at separators.
-/

namespace LuaAnalysis.Text

open List

variable {c : Char} {x y : List Char}

theorem trim_cons_blank (hc : isBlank c = true) : trim (c :: x) = trim x := by
  rw [trim, dropWhile_cons_of_pos hc, trim]

theorem trim_dropWhile : trim (x.dropWhile isBlank) = trim x := by
  induction x with
  | nil => rfl
  | cons c x ih =>
    cases hc : isBlank c with
    | true => rw [dropWhile_cons_of_pos hc, ih, trim_cons_blank hc]
    | false => rw [dropWhile_cons_of_neg (by simp [hc])]

theorem dropWhile_concat (hc : isBlank c = false) :
    (x ++ [c]).dropWhile isBlank = x.dropWhile isBlank ++ [c] := by
  rw [dropWhile_append]
  split
  · rename_i hempty
    rw [isEmpty_iff.1 hempty, dropWhile_cons_of_neg (by simp [hc])]
    rfl
  · rfl

theorem trim_concat (hc : isBlank c = false) : trim (x ++ [c]) = x.dropWhile isBlank ++ [c] := by
  simp [trim, dropWhile_concat hc, dropEndWhile, hc]

theorem trim_concat_blank (hc : isBlank c = true) : trim (x ++ [c]) = trim x := by
  rw [trim, dropWhile_append]
  split
  · rename_i hempty
    rw [trim, isEmpty_iff.1 hempty, dropWhile_cons_of_pos hc]
    rfl
  · simp [trim, dropEndWhile, hc]

variable {p : Char → Bool}

/-- The first piece grows by a character that separates nothing. -/
theorem splitOn_cons (hc : p c = false) :
    ∃ m ms, splitOn p x = m :: ms ∧ splitOn p (c :: x) = (c :: m) :: ms := by
  cases h : splitOn p x with
  | nil => exact absurd h (splitOn_ne_nil p x)
  | cons m ms => exact ⟨m, ms, rfl, by simp [splitOn, hc, h]⟩

theorem splitOn_concat (hc : p c = false) :
    ∃ ms m, splitOn p x = ms ++ [m] ∧ splitOn p (x ++ [c]) = ms ++ [m ++ [c]] := by
  induction x with
  | nil => exact ⟨[], [], rfl, by simp [splitOn, hc]⟩
  | cons d x ih =>
    obtain ⟨ms, m, hx, hxc⟩ := ih
    cases hd : p d with
    | true => exact ⟨[] :: ms, m, by simp [splitOn, hd, hx], by simp [splitOn, hd, hxc]⟩
    | false =>
      cases ms with
      | nil => exact ⟨[], d :: m, by simp [splitOn, hd, hx], by simp [splitOn, hd, hxc]⟩
      | cons n ms =>
        exact ⟨(d :: n) :: ms, m, by simp [splitOn, hd, hx], by simp [splitOn, hd, hxc]⟩

/-- A separator splits the text in two that are split on their own. -/
theorem splitOn_append (hc : p c = true) :
    splitOn p (x ++ c :: y) = splitOn p x ++ splitOn p y := by
  induction x with
  | nil => simp [splitOn, hc]
  | cons d x ih =>
    cases hd : p d with
    | true => simp [splitOn, hd, ih]
    | false =>
      obtain ⟨m, ms, hx, hdx⟩ := splitOn_cons (x := x) hd
      rw [hdx, cons_append, splitOn, hd, ih, hx]
      rfl

theorem splitOn_eq_singleton (h : ∀ c ∈ x, p c = false) : splitOn p x = [x] := by
  induction x with
  | nil => rfl
  | cons d x ih =>
    rw [forall_mem_cons] at h
    simp [splitOn, h.1, ih h.2]

theorem dropSuffix?_concat : dropSuffix? [c] (x ++ [c]) = some x := by
  simp [dropSuffix?, dropPrefix?]

theorem dropSuffix?_concat_ne {d : Char} (h : c ≠ d) : dropSuffix? [d] (x ++ [c]) = none := by
  simp [dropSuffix?, dropPrefix?, h.symm]

end LuaAnalysis.Text
