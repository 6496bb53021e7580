import LuaAnalysis.Proofs.OrderedMap
import LuaAnalysis.Source.Directive

/-!
# Two directives for one line

A directive is for its own line or for the next one, and a line of a text has at most one directive.
So at most two directives are for a line: the one in the line (`own?`) and the one above it
(`above?`). The table has room for one of them, and the one in the line is written last.

Hence the directives of a line do not add up: the one in the line hides the one above it, and a kind
that only the hidden one lists is switched on again (`isDisabled_ofText_iff`).
-/

namespace LuaAnalysis.Directives

open Option

def Lists (kinds : List String) (name code : String) : Prop :=
  kinds = [] ∨ name ∈ kinds ∨ code ∈ kinds

instance (kinds : List String) (name code : String) : Decidable (Lists kinds name code) :=
  inferInstanceAs (Decidable (_ ∨ _ ∨ _))

def inLine? (text : String) (n : Nat) : Option (Nat × List String) :=
  (Text.lines text.toList)[n]?.bind (ofLine? n)

def Aims (text : String) (l : Nat) (kinds : List String) : Prop :=
  ∃ n, inLine? text n = some (l, kinds)

def kindsFor? (l : Nat) (directive : Option (Nat × List String)) : Option (List String) :=
  directive.bind fun (target, kinds) => if target = l then some kinds else none

def own? (text : String) (l : Nat) : Option (List String) :=
  kindsFor? l (inLine? text l)

def above? (text : String) : Nat → Option (List String)
  | 0 => none
  | l + 1 => kindsFor? (l + 1) (inLine? text l)

variable {n k l : Nat} {kinds : List String} {line : List Char} {ls : List (List Char)}
  {text : String}
variable {d : Option (Nat × List String)}

theorem kindsFor?_eq_some_iff : kindsFor? l d = some kinds ↔ d = some (l, kinds) := by
  rcases d with _ | ⟨m, kinds'⟩
  · simp [kindsFor?]
  · by_cases hm : m = l <;> simp [kindsFor?, hm]

/-! ## Directives of one line -/

theorem target_of_ofLine? {d : Nat × List String} (h : ofLine? n line = some d) :
    d.1 = n ∨ d.1 = n + 1 := by
  simp only [ofLine?, bind_eq_bind, bind_eq_some_iff] at h
  obtain ⟨parts, -, h⟩ := h
  split at h
  · cases h
    exact .inr rfl
  · obtain ⟨rest, -, rfl⟩ := map_eq_some_iff.1 h
    exact .inl rfl

theorem aims_iff : Aims text l kinds ↔ own? text l = some kinds ∨ above? text l = some kinds := by
  constructor
  · rintro ⟨n, hn⟩
    obtain ⟨line, -, hline⟩ := bind_eq_some_iff.1 hn
    rcases target_of_ofLine? hline with rfl | rfl
    · exact .inl (kindsFor?_eq_some_iff.2 hn)
    · exact .inr (kindsFor?_eq_some_iff.2 hn)
  · rintro (h | h)
    · exact ⟨l, kindsFor?_eq_some_iff.1 h⟩
    · cases l with
      | zero => cases h
      | succ l => exact ⟨l, kindsFor?_eq_some_iff.1 h⟩

/-! ## The directive that is written last -/

def last? (l : Nat) (ds : List (Nat × List String)) : Option (List String) :=
  (ds.filter (·.1 = l)).getLast?.map (·.2)

theorem last?_toList_append {ds : List (Nat × List String)} :
    last? l (d.toList ++ ds) = (last? l ds).or (kindsFor? l d) := by
  rcases d with _ | ⟨m, kinds⟩
  · simp [kindsFor?]
  · rw [last?, last?, List.filter_append, List.getLast?_append, map_or]
    refine congrArg (Option.or _) ?_
    by_cases hm : m = l <;> simp [kindsFor?, hm]

theorem kindsFor?_eq_none (h : l < n ∨ n + 1 < l) : kindsFor? l (ofLine? n line) = none := by
  rw [eq_none_iff_forall_ne_some]
  intro kinds hkinds
  have := target_of_ofLine? (kindsFor?_eq_some_iff.1 hkinds)
  omega

theorem last?_ofLines_of_lt (h : l < n) : last? l (ofLines n ls) = none := by
  induction ls generalizing n with
  | nil => rfl
  | cons line ls ih =>
    rw [ofLines, last?_toList_append, ih (Nat.lt_succ_of_lt h), kindsFor?_eq_none (.inl h), none_or]

theorem last?_ofLines_first : last? n (ofLines n ls) = kindsFor? n (ls[0]?.bind (ofLine? n)) := by
  cases ls with
  | nil => rfl
  | cons line ls =>
    rw [ofLines, last?_toList_append, last?_ofLines_of_lt (Nat.lt_succ_self n), none_or]; rfl

theorem last?_ofLines (n k : Nat) (ls : List (List Char)) :
    last? (n + k + 1) (ofLines n ls) =
      (kindsFor? (n + k + 1) (ls[k + 1]?.bind (ofLine? (n + k + 1)))).or
      (kindsFor? (n + k + 1) (ls[k]?.bind (ofLine? (n + k)))) := by
  induction ls generalizing n k with
  | nil => rfl
  | cons line ls ih =>
    rw [ofLines, last?_toList_append]
    cases k with
    | zero => rw [Nat.add_zero, last?_ofLines_first]; rfl
    | succ k =>
      have hline : n + (k + 1) + 1 = n + 1 + k + 1 := by omega
      rw [hline, ih, kindsFor?_eq_none (by omega), or_none, List.getElem?_cons_succ,
        List.getElem?_cons_succ, ← Nat.add_assoc, Nat.add_right_comm n k 1]

theorem get?_ofText : (ofText text).byLine.get? l = (own? text l).or (above? text l) := by
  have hfold : ∀ ds : List (Nat × List String), ∀ d : Directives,
      (ds.foldl (fun d (line, kinds) => d.add line kinds) d).byLine =
        ds.foldl (fun m e => m.insert e.1 e.2) d.byLine := by
    intro ds
    induction ds with
    | nil => exact fun d => rfl
    | cons e ds ih => exact fun d => ih (d.add e.1 e.2)
  rw [ofText, hfold, OrderedMap.get?_foldl_insert]
  refine or_none.trans ?_
  cases l with
  | zero => exact last?_ofLines_first.trans or_none.symm
  | succ l =>
    have hlast := last?_ofLines 0 l (Text.lines text.toList)
    rwa [Nat.zero_add] at hlast

theorem isDisabled_iff {d : Directives} {name code : String} :
    d.isDisabled l name code = true ↔ ∃ kinds ∈ d.byLine.get? l, Lists kinds name code := by
  unfold isDisabled Lists
  cases d.byLine.get? l with
  | none => simp
  | some kinds =>
    simp only [Bool.or_eq_true, List.isEmpty_iff, List.any_eq_true, beq_iff_eq, mem_def,
      Option.some.injEq, exists_eq_left']
    refine or_congr_right ⟨?_, ?_⟩
    · rintro ⟨kind, hkind, rfl | rfl⟩
      · exact .inl hkind
      · exact .inr hkind
    · rintro (hname | hcode)
      · exact ⟨name, hname, .inl rfl⟩
      · exact ⟨code, hcode, .inr rfl⟩

/-- What is switched off on a line. The directive in the line decides alone, and the one above it
only where the line has none. So a kind is switched off as soon as one directive for the line lists
it, except where the directive above the line lists it and the one in the line does not. -/
theorem isDisabled_ofText_iff (text : String) (l : Nat) (name code : String) :
    ((ofText text).isDisabled l name code = true ↔
      ∃ kinds ∈ (own? text l).or (above? text l), Lists kinds name code) ∧
    (((ofText text).isDisabled l name code = true ↔ ∃ kinds, Aims text l kinds ∧
      Lists kinds name code) ↔
      ∀ kinds ∈ own? text l, (∃ hidden ∈ above? text l, Lists hidden name code) →
        Lists kinds name code) := by
  rw [isDisabled_iff, get?_ofText]
  refine ⟨Iff.rfl, ?_⟩
  simp only [aims_iff]
  cases hown : own? text l with
  | none => simp
  | some own =>
    simp only [some_or, mem_def, Option.some.injEq, exists_eq_left', forall_eq']
    constructor
    · rintro h ⟨hidden, habove, hlists⟩
      exact h.2 ⟨hidden, .inr habove, hlists⟩
    · intro h
      refine ⟨fun hlists => ⟨own, .inl rfl, hlists⟩, ?_⟩
      rintro ⟨kinds, rfl | habove, hlists⟩
      · exact hlists
      · exact h ⟨kinds, habove, hlists⟩

def twiceAimedText : String :=
  "-- luma-disable-next-line unused-local\nlocal x = y -- luma-disable-line undefined-global\n"

/-- The first directive switches a kind off and the second one switches it on again. -/
theorem not_isDisabled_twiceAimedText :
    Aims twiceAimedText 1 ["unused-local"] ∧ Lists ["unused-local"] "unused-local" "L001" ∧
      (ofText twiceAimedText).isDisabled 1 "unused-local" "L001" = false :=
  ⟨⟨0, by decide +kernel⟩, by decide, by decide +kernel⟩

end LuaAnalysis.Directives
