import LuaAnalysis.Check.Duplicate
import LuaAnalysis.Check.Redundant
import LuaAnalysis.Proofs.OrderedMap
import LuaAnalysis.Proofs.Tree.Narrowing
import LuaAnalysis.Proofs.Tree.Sameness
import Mathlib.Data.Finset.Card
import Mathlib.Data.List.Forall2

/-!
# What the checks of single nodes report

A check for repeats pairs each item with the first earlier one that it repeats, in the order of the
items (`RepeatsFrom`), and reports these pairs. The checks that compare expressions never report one
in which something is called or built: such an expression has a call that is looked for, or it is
not the same as any expression.
-/

namespace LuaAnalysis.Check

open List

/-! ## Items and what they repeat -/

section

variable {α : Type} {same : α → α → Prop} {earlier rest : List α} {x : α}
  {pairs : List ((Nat × α) × (Nat × α))}

/-- The item `later` repeats an earlier item, and `first` is the first one that it repeats. Both
stand with their indices. -/
structure FirstRepeated (same : α → α → Prop) (items : List α) (later first : Nat × α) : Prop where
  later_eq : items[later.1]? = some later.2
  first_eq : items[first.1]? = some first.2
  before : first.1 < later.1
  repeated : same first.2 later.2
  minimal : ∀ i y, i < first.1 → items[i]? = some y → ¬ same y later.2

theorem FirstRepeated.eq {items : List α} {later first first' : Nat × α}
    (h : FirstRepeated same items later first) (h' : FirstRepeated same items later first') :
    first = first' := by
  have hidx : first.1 = first'.1 := by
    rcases Nat.lt_trichotomy first.1 first'.1 with hlt | heq | hgt
    · exact (h'.minimal _ _ hlt h.first_eq h.repeated).elim
    · exact heq
    · exact (h.minimal _ _ hgt h'.first_eq h'.repeated).elim
  have hitem := h.first_eq
  rw [hidx, h'.first_eq] at hitem
  exact Prod.ext hidx (Option.some.inj hitem).symm

/-- The pairs are, in order and one each, the items from index `n` on that repeat an earlier one,
each with the first of these. -/
structure RepeatsFrom (same : α → α → Prop) (items : List α) (n : Nat)
    (pairs : List ((Nat × α) × (Nat × α))) : Prop where
  inOrder : pairs.Pairwise (·.1.1 < ·.1.1)
  mem_iff : ∀ later first, (later, first) ∈ pairs ↔ FirstRepeated same items later first ∧
    n ≤ later.1

namespace RepeatsFrom

theorem nil (items : List α) : RepeatsFrom same items items.length [] where
  inOrder := .nil
  mem_iff later first := by
    refine ⟨fun h => (not_mem_nil h).elim, fun ⟨h, hle⟩ => ?_⟩
    have hnone := getElem?_eq_none hle
    rw [h.later_eq] at hnone
    cases hnone

theorem eq_of_index {later : Nat × α} (h : (earlier ++ x :: rest)[later.1]? = some later.2)
    (hidx : earlier.length = later.1) : later = (earlier.length, x) := by
  rw [← hidx, getElem?_append_right (Nat.le_refl _), Nat.sub_self] at h
  exact Prod.ext hidx.symm (Option.some.inj h).symm

theorem mem_of_index {i : Nat} {y : α} (hy : (earlier ++ rest)[i]? = some y)
    (hi : i < earlier.length) : y ∈ earlier := by
  rw [getElem?_append_left hi] at hy
  exact mem_of_getElem? hy

theorem skip (h : RepeatsFrom same (earlier ++ x :: rest) (earlier.length + 1) pairs)
    (hnew : ∀ y ∈ earlier, ¬ same y x) :
    RepeatsFrom same (earlier ++ x :: rest) earlier.length pairs where
  inOrder := h.inOrder
  mem_iff later first := by
    rw [h.mem_iff]
    refine and_congr_right fun hr =>
      ⟨Nat.le_of_succ_le, fun hle => Nat.lt_of_le_of_ne hle fun hidx => ?_⟩
    obtain rfl := eq_of_index hr.later_eq hidx
    exact hnew _ (mem_of_index hr.first_eq hr.before) hr.repeated

theorem take {as bs : List α} {y : α}
    (h : RepeatsFrom same (earlier ++ x :: rest) (earlier.length + 1) pairs)
    (hearlier : earlier = as ++ y :: bs) (hsame : same y x) (hnew : ∀ z ∈ as, ¬ same z x) :
    RepeatsFrom same (earlier ++ x :: rest) earlier.length
      (((earlier.length, x), (as.length, y)) :: pairs) where
  inOrder := .cons (fun p hp => ((h.mem_iff p.1 p.2).1 hp).2) h.inOrder
  mem_iff later first := by
    have hx : FirstRepeated same (earlier ++ x :: rest) (earlier.length, x) (as.length, y) := by
      refine ⟨by simp, by simp [hearlier], by simp [hearlier], hsame, fun i z hi hz => hnew z ?_⟩
      rw [hearlier, append_assoc] at hz
      exact mem_of_index hz hi
    rw [mem_cons, h.mem_iff, Prod.mk.injEq]
    constructor
    · rintro (⟨rfl, rfl⟩ | ⟨hr, hle⟩)
      · exact ⟨hx, Nat.le_refl _⟩
      · exact ⟨hr, Nat.le_of_succ_le hle⟩
    · rintro ⟨hr, hle⟩
      rcases Nat.eq_or_lt_of_le hle with hidx | hlt
      · obtain rfl := eq_of_index hr.later_eq hidx
        exact .inl ⟨rfl, hr.eq hx⟩
      · exact .inr ⟨hr, hlt⟩

end RepeatsFrom

end

/-! ## Keys -/

section

variable {α κ : Type} [DecidableEq κ] {key? : α → Option (κ × TextRange)}

def SameKey (key? : α → Option (κ × TextRange)) (x y : α) : Prop :=
  ∃ k r r', key? x = some (k, r) ∧ key? y = some (k, r')

/-- Each item whose key an earlier one has is told once, in order, with the place of its key and the
place of the first such key. Every other item with a key has a key of its own. -/
structure TellsRepeats (key? : α → Option (κ × TextRange)) (finding : Repeat κ → Finding)
    (items : List α) (found : List Finding) : Prop where
  told : ∃ pairs, RepeatsFrom (SameKey key?) items 0 pairs ∧
    List.Forall₂ (fun p f => ∃ d : Repeat κ, key? p.1.2 = some (d.key, d.range) ∧
      key? p.2.2 = some (d.key, d.first) ∧
      f = finding d) pairs found
  count : found.length + ((items.filterMap key?).map (·.1)).dedup.length =
    (items.filterMap key?).length

def placeOf? (key? : α → Option (κ × TextRange)) (k : κ) (x : α) : Option TextRange :=
  (key? x).bind fun p => if p.1 = k then some p.2 else none

theorem placeOf?_eq_some {k : κ} {x : α} {r : TextRange} :
    placeOf? key? k x = some r ↔ key? x = some (k, r) := by
  rw [placeOf?, Option.bind_eq_some_iff]
  constructor
  · rintro ⟨⟨k', r'⟩, hx, h⟩
    split at h
    · next hk => rw [hx, ← hk, ← Option.some.inj h]
    · cases h
  · intro hx
    exact ⟨(k, r), hx, if_pos rfl⟩

theorem not_sameKey {k : κ} {x y : α} {r : TextRange} (hx : key? x = some (k, r))
    (hy : placeOf? key? k y = none) : ¬ SameKey key? y x := by
  rintro ⟨k', r₁, r₂, hy', hx'⟩
  rw [hx] at hx'
  obtain ⟨rfl, rfl⟩ := Prod.mk.inj (Option.some.inj hx')
  rw [placeOf?_eq_some.2 hy'] at hy
  cases hy

/-- The map holds the first place of every key. -/
def Remembers (key? : α → Option (κ × TextRange)) (seen : OrderedMap κ TextRange)
    (earlier : List α) : Prop :=
  ∀ k, seen.get? k = earlier.findSome? (placeOf? key? k)

theorem Remembers.later {seen : OrderedMap κ TextRange} {earlier : List α}
    (h : Remembers key? seen earlier) (x : α) (seen' : OrderedMap κ TextRange)
    (hnew : ∀ k, seen'.get? k = (seen.get? k).or (placeOf? key? k x)) :
    Remembers key? seen' (earlier ++ [x]) := by
  intro k
  rw [hnew, h k, findSome?_append]
  simp

theorem exists_repeatsAfter (earlier items : List α) {seen : OrderedMap κ TextRange}
    (hseen : Remembers key? seen earlier) :
    ∃ pairs, RepeatsFrom (SameKey key?) (earlier ++ items) earlier.length pairs ∧
      List.Forall₂ (fun p d => key? p.1.2 = some (d.key, d.range) ∧
        key? p.2.2 = some (d.key, d.first)) pairs
        (repeatsAfter seen (items.filterMap key?)) := by
  induction items generalizing earlier seen with
  | nil => exact ⟨[], by simpa using RepeatsFrom.nil earlier, .nil⟩
  | cons x items ih =>
    have hrest : ∀ {seen'}, Remembers key? seen' (earlier ++ [x]) → ∃ pairs,
        RepeatsFrom (SameKey key?) (earlier ++ x :: items) (earlier.length + 1) pairs ∧
          List.Forall₂ (fun p d => key? p.1.2 = some (d.key, d.range) ∧
            key? p.2.2 = some (d.key, d.first)) pairs
            (repeatsAfter seen' (items.filterMap key?)) := by
      intro seen' h
      obtain ⟨pairs, hpairs, htold⟩ := ih (earlier ++ [x]) h
      rw [append_assoc, length_append] at hpairs
      exact ⟨pairs, hpairs, htold⟩
    cases hx : key? x with
    | none =>
      obtain ⟨pairs, hpairs, htold⟩ := hrest (hseen.later x seen fun k => by simp [placeOf?, hx])
      rw [filterMap_cons_none hx]
      refine ⟨pairs, hpairs.skip ?_, htold⟩
      rintro y - ⟨k, r, r', -, hk⟩
      rw [hx] at hk
      cases hk
    | some place =>
      obtain ⟨k, r⟩ := place
      rw [filterMap_cons_some hx, repeatsAfter]
      cases hk : seen.get? k with
      | some first =>
        have hplace := hk
        rw [hseen k, findSome?_eq_some_iff] at hplace
        obtain ⟨as, y, bs, hearlier, hy, has⟩ := hplace
        obtain ⟨pairs, hpairs, htold⟩ := hrest (hseen.later x seen fun k' => by
          by_cases hkk : k' = k
          · simp [hkk, hk]
          · simp [placeOf?, hx, Ne.symm hkk])
        have hy := placeOf?_eq_some.1 hy
        exact ⟨_, hpairs.take hearlier ⟨k, first, r, hy, hx⟩ fun z hz =>
          not_sameKey hx (has z hz), .cons ⟨hx, hy⟩ htold⟩
      | none =>
        obtain ⟨pairs, hpairs, htold⟩ := hrest (hseen.later x (seen.insert k r) fun k' => by
          rw [OrderedMap.get?_insert]
          by_cases hkk : k = k'
          · subst hkk
            simp [hk, placeOf?, hx]
          · simp [placeOf?, hx, hkk])
        rw [hseen k, findSome?_eq_none_iff] at hk
        exact ⟨pairs, hpairs.skip fun y hy => not_sameKey hx (hk y hy), htold⟩

theorem length_repeatsAfter (seen : OrderedMap κ TextRange) (places : List (κ × TextRange)) :
    (repeatsAfter seen places).length + ((places.map (·.1)).toFinset \ seen.keys.toFinset).card =
      places.length := by
  induction places generalizing seen with
  | nil => simp [repeatsAfter]
  | cons place places ih =>
    obtain ⟨k, r⟩ := place
    rw [repeatsAfter]
    cases hk : seen.get? k with
    | some first =>
      have hmem : k ∈ seen.keys.toFinset := mem_toFinset.2 (OrderedMap.mem_keys_of_get? hk)
      have hrest := ih seen
      simp only [map_cons, toFinset_cons, Finset.insert_sdiff_of_mem _ hmem, length_cons]
      omega
    | none =>
      have hmem : k ∉ seen.keys := OrderedMap.not_mem_keys_iff.2 hk
      have hrest := ih (seen.insert k r)
      rw [OrderedMap.keys_insert_of_not_mem hmem] at hrest
      have hsplit : (((k, r) :: places).map (·.1)).toFinset \ seen.keys.toFinset =
          insert k ((places.map (·.1)).toFinset \ (seen.keys ++ [k]).toFinset) := by
        ext k'
        by_cases hkk : k' = k <;> simp [hkk, hmem]
      rw [hsplit, Finset.card_insert_of_notMem (by simp)]
      simp only [length_cons]
      omega

theorem tellsRepeats (key? : α → Option (κ × TextRange)) (finding : Repeat κ → Finding)
    (items : List α) :
    TellsRepeats key? finding items ((repeats (items.filterMap key?)).map finding) where
  told := by
    have hnone : Remembers key? {} [] := fun _ => rfl
    obtain ⟨pairs, hpairs, htold⟩ := exists_repeatsAfter [] items hnone
    refine ⟨pairs, hpairs, forall₂_map_right_iff.2 (htold.imp fun p d h => ⟨d, h.1, h.2, rfl⟩)⟩
  count := by
    have h := length_repeatsAfter {} (items.filterMap key?)
    rw [length_map, ← card_toFinset]
    simpa [repeats, OrderedMap.keys] using h

end

/-- Repeated keys of a table, repeated literal values of its keys and repeated parameters are each
told once, against the first. -/
theorem repeats_told_once :
    (∀ fields, TellsRepeats literalKey?
      (fun d => ⟨.duplicateKey, s!"duplicate key '{d.key.text}' in table", d.range,
        [⟨"first defined here", d.first⟩]⟩) fields
      (duplicateKeys fields)) ∧
    (∀ fields, TellsRepeats literalValue?
      (fun d => ⟨.duplicateEnumValue, s!"duplicate enum value '{d.key.text}'", d.range,
        [⟨"first used here", d.first⟩]⟩) fields
      (duplicateEnumValues fields)) ∧
    ∀ params, TellsRepeats (fun p : Name => some (p.text, p.range))
      (fun d => ⟨.duplicateParam, s!"duplicate parameter '{d.key}'", d.range,
        [⟨"first declared here", d.first⟩]⟩) params
      (duplicateParams params) := by
  refine ⟨fun fields => tellsRepeats _ _ fields, fun fields =>
    tellsRepeats _ _ fields, fun params => ?_⟩
  have hkeys : params.filterMap (fun p => some (p.text, p.range)) = params.map fun p =>
    (p.text, p.range) := by simp
  rw [duplicateParams, ← hkeys]
  exact tellsRepeats _ _ params

end LuaAnalysis.Check

/-! ## Expressions that are compared -/

namespace LuaAnalysis.Exp

/-- Nothing is called or built in the expression, at any depth. -/
def isPlain : Exp → Bool
  | call .. | methodCall .. | function .. | table .. => false
  | index _ obj key _ => obj.isPlain && key.isPlain
  | binary _ _ lhs rhs => lhs.isPlain && rhs.isPlain
  | unary _ _ operand => operand.isPlain
  | paren _ inner => inner.isPlain
  | _ => true

theorem isPlain_of_sameAs : ∀ a b : Exp, a.sameAs b = true → a.isPlain = !a.hasCall ∧
    b.isPlain = !a.hasCall := by
  refine (sameAs_induction (Q := fun _ _ => True) ?nil ?bool ?vararg ?number ?string ?name ?index
    ?call ?methodCall ?binary
    ?unary ?paren trivial fun _ _ _ _ _ _ => trivial).1
  all_goals
    intros
    simp_all [isPlain, hasCall]

theorem isPlain_unparen (e : Exp) : e.unparen.isPlain = e.isPlain := by
  fun_induction unparen e <;> simp_all [isPlain]

theorem hasCall_unparen (e : Exp) : e.unparen.hasCall = e.hasCall := by
  fun_induction unparen e <;> simp_all [hasCall]

end LuaAnalysis.Exp

namespace LuaAnalysis.Check

def conditionFinding? (later first : Clause) : Option Finding :=
  if later.cond.isPlain then
    some ⟨.duplicateIf, "duplicate condition in if chain", later.cond.range,
      [⟨"same condition here", first.cond.range⟩]⟩
  else none

theorem exists_duplicateConditionsAfter (earlier clauses : List Clause) :
    ∃ pairs, RepeatsFrom (fun c d => c.cond.sameAs d.cond =
      true) (earlier ++ clauses) earlier.length pairs ∧
      duplicateConditionsAfter (earlier.map (·.cond)) (clauses.map (·.cond)) =
        pairs.filterMap fun p => conditionFinding? p.1.2 p.2.2 := by
  induction clauses generalizing earlier with
  | nil => exact ⟨[], by simpa using RepeatsFrom.nil earlier, rfl⟩
  | cons c clauses ih =>
    obtain ⟨pairs, hpairs, hfound⟩ := ih (earlier ++ [c])
    rw [List.append_assoc, List.length_append] at hpairs
    rw [List.map_append] at hfound
    rw [List.map_cons, duplicateConditionsAfter, List.find?_map]
    cases hfirst : earlier.find? fun d => d.cond.sameAs c.cond with
    | none =>
      refine ⟨pairs, hpairs.skip fun d hd => List.find?_eq_none.1 hfirst d hd, ?_⟩
      have hnone : (if c.cond.hasCall then none else (none : Option Clause).map (·.cond)) =
        none := by split <;> rfl
      simp only [Function.comp_def, hfirst, hnone]
      exact hfound
    | some first =>
      obtain ⟨hsame, as, bs, hearlier, has⟩ := List.find?_eq_some_iff_append.1 hfirst
      refine ⟨_, hpairs.take hearlier hsame fun d hd => by simpa using has d hd, ?_⟩
      have hplain := (Exp.isPlain_of_sameAs _ _ (Exp.sameAs_symm.1 _ _ hsame)).1
      simp only [Function.comp_def, hfirst]
      rw [List.filterMap_cons, ← hfound, conditionFinding?, hplain]
      cases c.cond.hasCall <;> rfl

theorem exists_duplicateExp_iff (op : BinOp) (lhs rhs : Exp) (range : TextRange) :
    (∃ f ∈ redundantBinary op lhs rhs range, f.kind = .duplicateExp) ↔
    equalOperands op lhs rhs = true := by
  unfold redundantBinary
  constructor
  · rintro ⟨f, hf, hkind⟩
    rcases List.mem_append.1 hf with hf | hf
    · split at hf
      · assumption
      · cases hf
    · -- What is said about constants is of other kinds.
      cases op <;> dsimp only at hf <;> try cases hf
      all_goals
        split at hf
        · cases List.mem_singleton.1 hf
          cases hkind
        · cases hf
  · intro h
    rw [if_pos h]
    exact ⟨_, List.mem_append_left _ (List.mem_singleton_self _), rfl⟩

theorem isPlain_of_sameAs_unparen {t v : Exp} (h : t.sameAs v.unparen = true) :
    t.isPlain = !v.hasCall ∧ v.isPlain = !v.hasCall := by
  have hv := Exp.isPlain_of_sameAs _ _ (Exp.sameAs_symm.1 _ _ h)
  rwa [Exp.isPlain_unparen, Exp.hasCall_unparen, and_comm] at hv

/-- Only plain expressions are told to be repeated: a condition that is the same as an earlier one,
once and against the first one; the two operands of an operator; the target and the value of an
assignment. -/
theorem redundant_are_plain :
    (∀ clauses, ∃ pairs,
      RepeatsFrom (fun c d : Clause => c.cond.sameAs d.cond = true) clauses 0 pairs ∧
      duplicateConditions clauses = pairs.filterMap (fun p => conditionFinding? p.1.2 p.2.2) ∧
      ∀ p ∈ pairs, (conditionFinding? p.1.2 p.2.2).isSome → p.1.2.cond.isPlain ∧
        p.2.2.cond.isPlain) ∧
    (∀ op lhs rhs range, (∃ f ∈ redundantBinary op lhs rhs range, f.kind = .duplicateExp) ↔
      marksEqualOperands op ∧ lhs.sameAs rhs ∧ !isNumberOrString lhs ∧ lhs.isPlain ∧ rhs.isPlain) ∧
    ∀ targets values, selfAssignments targets values =
      ((targets.zip values).filter fun p =>
        p.1.sameAs p.2.unparen && p.1.isPlain && p.2.isPlain).map fun p =>
        ⟨.selfAssign, "variable is assigned to itself", p.1.range, []⟩ := by
  refine ⟨fun clauses => ?_, fun op lhs rhs range => ?_, fun targets values => ?_⟩
  · obtain ⟨pairs, hpairs, hfound⟩ := exists_duplicateConditionsAfter [] clauses
    refine ⟨pairs, hpairs, hfound, fun p hp htold => ?_⟩
    have hsame := ((hpairs.mem_iff p.1 p.2).1 hp).1.repeated
    have hplain := Exp.isPlain_of_sameAs _ _ hsame
    have hlater : p.1.2.cond.isPlain = true := by
      rw [conditionFinding?] at htold
      split at htold
      · assumption
      · cases htold
    exact ⟨hlater, by rw [hplain.1, ← hplain.2, hlater]⟩
  · rw [exists_duplicateExp_iff, equalOperands]
    by_cases hsame : lhs.sameAs rhs = true
    · have hplain := Exp.isPlain_of_sameAs _ _ hsame
      simp only [hsame, hplain]
      simp [and_comm, and_left_comm]
    · simp [hsame]
  · rw [selfAssignments]
    refine congrArg _ (List.filter_congr fun p _ => ?_)
    by_cases hsame : p.1.sameAs p.2.unparen = true
    · have hplain := isPlain_of_sameAs_unparen hsame
      simp only [hsame, hplain]
      cases p.2.hasCall <;> rfl
    · simp [hsame]

end LuaAnalysis.Check
