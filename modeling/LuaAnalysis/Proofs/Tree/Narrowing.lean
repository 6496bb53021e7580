import LuaAnalysis.Tree.Narrowing

/-!
# What a condition proves about names holds when it is evaluated

The meaning of a condition is given by an evaluator that reads names from an assignment and takes
the value of every part that is not logical from an interpretation. Main result:
`Exp.narrowing_sound`. Whatever comes out of the condition, the names collected for its truth have
the values that were promised.
-/

namespace LuaAnalysis

/-! ## Sets of names -/

variable {n : String} {v : Value}

namespace NameSet

theorem contains_singleton {m : String} : (singleton m).contains n = true ↔ n = m := by
  simp [singleton, contains]

@[simp] theorem contains_empty : (({} : NameSet)).contains n = false := rfl

theorem mem_merge {xs : List String} (ys : List String) : n ∈ merge xs ys ↔ n ∈ xs ∨ n ∈ ys := by
  induction xs generalizing ys with
  | nil => simp [merge]
  | cons x xs ih =>
    -- the head splits the other list in two, and loses only its own copies from the second part
    have hsplit : n ∈ ys ↔ n ∈ ys.takeWhile (· < x) ∨ n ∈ ys.dropWhile (· < x) := by
      rw [← List.mem_append, List.takeWhile_append_dropWhile]
    simp only [merge, List.mem_append, List.mem_cons, ih, List.mem_filter,
      decide_eq_true_eq, hsplit]
    by_cases hx : n = x <;> simp [hx, or_left_comm]

theorem contains_union {s t : NameSet} : (s.union t).contains n = true ↔ s.contains n = true ∨
    t.contains n = true := by
  simp [union, contains, mem_merge]

theorem contains_inter {s t : NameSet} : (s.inter t).contains n = true ↔ s.contains n = true ∧
    t.contains n = true := by
  simp [inter, contains]

end NameSet

/-! ## Evaluation of conditions -/

/-- A value of Lua. Tables, functions, threads and userdata are told apart by their identity. -/
inductive Value where
  | nil
  | bool (b : Bool)
  | number (n : Numeral)
  | string (text : String)
  | object (identity : Nat)
deriving DecidableEq, Repr, Inhabited

namespace Value

/-- Only nil and false count as false. -/
def truthy : Value → Bool
  | nil => false
  | bool b => b
  | _ => true

theorem eq_nil_or_false (h : v.truthy = false) : v = .nil ∨ v = .bool false := by
  cases v with
  | nil => exact .inl rfl
  | bool b => exact .inr (congrArg Value.bool h)
  | number | string | object => cases h

theorem ne_nil_of_truthy (h : v.truthy = true) : v ≠ .nil := by
  rintro rfl
  cases h

end Value

namespace Exp

/-- The value of an expression when its names have the values of `σ` and the parts that are not
logical those of `ι`, which leaves out a part that has no value. `and` and `or` are an operand and
reach their right one only when the left one does not decide. A comparison with nil is raw equality;
any other may be redefined by its operands, and so is not logical. -/
def eval (σ : String → Value) (ι : Exp → Option Value) : Exp → Option Value
  | nil _ => some .nil
  | bool _ b => some (.bool b)
  | name _ n => some (σ n)
  | paren _ inner => inner.eval σ ι
  | unary _ .not operand => do
    let v ← operand.eval σ ι
    some (.bool (!v.truthy))
  | binary _ .and lhs rhs => do
    let v ← lhs.eval σ ι
    if v.truthy then rhs.eval σ ι else some v
  | binary _ .or lhs rhs => do
    let v ← lhs.eval σ ι
    if v.truthy then some v else rhs.eval σ ι
  | binary r .eq lhs rhs =>
    if lhs.isNil || rhs.isNil then do
      let v ← lhs.eval σ ι
      let w ← rhs.eval σ ι
      some (.bool (v == w))
    else ι (binary r .eq lhs rhs)
  | binary r .ne lhs rhs =>
    if lhs.isNil || rhs.isNil then do
      let v ← lhs.eval σ ι
      let w ← rhs.eval σ ι
      some (.bool (v != w))
    else ι (binary r .ne lhs rhs)
  | e => ι e

variable {σ : String → Value} {ι : Exp → Option Value} {e : Exp}

theorem eval_unparen : e.unparen.eval σ ι = e.eval σ ι := by
  fun_induction unparen e with
  | case1 _ inner ih => simpa only [eval] using ih
  | case2 => rfl

theorem eval_of_isNil (h : e.isNil = true) : e.eval σ ι = some .nil := by
  fun_induction isNil e with
  | case1 => rfl
  | case2 _ inner ih => simpa only [eval] using ih h
  | case3 => cases h

theorem eval_of_asName? (h : e.unparen.asName? = some n) : e.eval σ ι = some (σ n) := by
  rw [← eval_unparen]
  generalize e.unparen = e' at h ⊢
  cases e' <;> cases h
  rfl

theorem eval_of_nilCompared {lhs rhs : Exp} (h : (nilCompared lhs rhs).contains n = true) :
    (lhs.eval σ ι = some (σ n) ∧ rhs.eval σ ι = some .nil) ∨
    (lhs.eval σ ι = some .nil ∧ rhs.eval σ ι = some (σ n)) := by
  by_cases hr : rhs.isNil = true
  · cases hn : lhs.unparen.asName? with
    | none => simp [nilCompared, hr, hn] at h
    | some m =>
      obtain rfl : n = m := by simpa [nilCompared, hr, hn, NameSet.contains_singleton] using h
      exact .inl ⟨eval_of_asName? hn, eval_of_isNil hr⟩
  · by_cases hl : lhs.isNil = true
    · cases hn : rhs.unparen.asName? with
      | none => simp [nilCompared, hr, hl, hn] at h
      | some m =>
        obtain rfl : n = m := by simpa [nilCompared, hr, hl, hn, NameSet.contains_singleton] using h
        exact .inr ⟨eval_of_isNil hl, eval_of_asName? hn⟩
    · simp [nilCompared, hr, hl] at h

/-- What is promised of the names in two sets: the first ones are nil or false, the second ones are
not nil. -/
structure Promise (σ : String → Value) (falsy present : NameSet) : Prop where
  falsy : ∀ n, falsy.contains n = true → (σ n).truthy = false
  present : ∀ n, present.contains n = true → σ n ≠ .nil

namespace Promise

variable {s s' t t' : NameSet}

theorem empty : Promise σ {} {} where
  falsy _ h := by cases h
  present _ h := by cases h

theorem union (h : Promise σ s t) (h' : Promise σ s' t') : Promise σ (s.union s') (t.union t') where
  falsy n hn := (NameSet.contains_union.1 hn).elim (h.falsy n) (h'.falsy n)
  present n hn := (NameSet.contains_union.1 hn).elim (h.present n) (h'.present n)

theorem inter_left (h : Promise σ s t) : Promise σ (s.inter s') (t.inter t') where
  falsy n hn := h.falsy n (NameSet.contains_inter.1 hn).1
  present n hn := h.present n (NameSet.contains_inter.1 hn).1

theorem inter_right (h : Promise σ s' t') : Promise σ (s.inter s') (t.inter t') where
  falsy n hn := h.falsy n (NameSet.contains_inter.1 hn).2
  present n hn := h.present n (NameSet.contains_inter.1 hn).2

theorem of_name {r : TextRange} :
    Promise σ ((name r n).falsyWhen (σ n).truthy) ((name r n).truthyWhen (σ n).truthy) := by
  cases h : (σ n).truthy with
  | false =>
    refine ⟨fun m hm => ?_, fun m hm => by cases hm⟩
    rwa [NameSet.contains_singleton.1 hm]
  | true =>
    refine ⟨fun m hm => (by cases hm), fun m hm => ?_⟩
    rw [NameSet.contains_singleton.1 hm]
    exact Value.ne_nil_of_truthy h

theorem of_eq {lhs rhs : Exp} (hl : lhs.eval σ ι = some v) (hr : rhs.eval σ ι = some v) :
    Promise σ (nilCompared lhs rhs) {} := by
  refine ⟨fun n hn => ?_, fun n hn => by cases hn⟩
  have hnil : σ n = .nil := by
    obtain ⟨hn, hnil⟩ | ⟨hnil, hn⟩ := eval_of_nilCompared (σ := σ) (ι := ι) hn <;> simp_all
  rw [hnil]
  rfl

theorem of_ne {lhs rhs : Exp} {w : Value} (hl : lhs.eval σ ι = some v) (hr : rhs.eval σ ι = some w)
    (hne : v ≠ w) : Promise σ {} (nilCompared lhs rhs) := by
  refine ⟨fun n hn => (by cases hn), fun n hn hnil => hne ?_⟩
  obtain ⟨hn, hnil'⟩ | ⟨hnil', hn⟩ := eval_of_nilCompared (σ := σ) (ι := ι) hn <;> simp_all

end Promise

/-- One induction proves both halves, since `not` turns every fact about one outcome into one about
the other. -/
theorem promise_of_eval (v : Value) (h : e.eval σ ι = some v) :
    Promise σ (e.falsyWhen v.truthy) (e.truthyWhen v.truthy) := by
  fun_induction eval σ ι e generalizing v with
  | case1 => cases h; exact .empty
  | case2 _ b => cases h; cases b <;> exact .empty
  | case3 r n => cases h; exact .of_name
  | case4 _ inner ih => simpa only [falsyWhen, truthyWhen] using ih v h
  | case5 _ operand ih =>
    obtain ⟨w, hw, hv⟩ := Option.bind_eq_some_iff.1 h
    cases hv
    simpa only [falsyWhen, truthyWhen, Value.truthy, Bool.not_not] using ih w hw
  | case6 _ lhs rhs ihl ihr =>
    obtain ⟨w, hw, hv⟩ := Option.bind_eq_some_iff.1 h
    have hl := ihl w hw
    cases hc : w.truthy with
    | false =>
      rw [hc, if_neg Bool.false_ne_true] at hv
      cases hv
      rw [hc] at hl ⊢
      exact hl.inter_left
    | true =>
      rw [hc] at hv hl
      have hr := ihr v hv
      cases hd : v.truthy with
      | false => rw [hd] at hr; exact hr.inter_right
      | true => rw [hd] at hr; exact hl.union hr
  | case7 _ lhs rhs ihl ihr =>
    obtain ⟨w, hw, hv⟩ := Option.bind_eq_some_iff.1 h
    have hl := ihl w hw
    cases hc : w.truthy with
    | true =>
      rw [hc] at hv
      cases hv
      rw [hc] at hl ⊢
      exact hl.inter_left
    | false =>
      rw [hc, if_neg Bool.false_ne_true] at hv
      rw [hc] at hl
      have hr := ihr v hv
      cases hd : v.truthy with
      | true => rw [hd] at hr; exact hr.inter_right
      | false => rw [hd] at hr; exact hl.union hr
  | case8 _ lhs rhs =>
    obtain ⟨x, hx, h⟩ := Option.bind_eq_some_iff.1 h
    obtain ⟨y, hy, h⟩ := Option.bind_eq_some_iff.1 h
    cases h
    cases hxy : x == y with
    | false => exact .of_ne hx hy (by simpa using hxy)
    | true => exact .of_eq hx (eq_of_beq hxy ▸ hy)
  | case10 _ lhs rhs =>
    obtain ⟨x, hx, h⟩ := Option.bind_eq_some_iff.1 h
    obtain ⟨y, hy, h⟩ := Option.bind_eq_some_iff.1 h
    cases h
    cases hxy : x != y with
    | true => exact .of_ne hx hy (by simpa using hxy)
    | false =>
      obtain rfl : x = y := by simpa using hxy
      exact .of_eq hx hy
  | case9 r lhs rhs hnil | case11 r lhs rhs hnil =>
    -- neither side is nil, so no name is collected
    have hempty : nilCompared lhs rhs = {} := by simp_all [nilCompared]
    cases v.truthy <;> simp only [falsyWhen, truthyWhen, hempty] <;> exact .empty
  | case12 e hNil hBool hName hParen hNot hAnd hOr hEq hNe =>
    cases e with
    | nil r => exact (hNil r rfl).elim
    | bool r b => exact (hBool r b rfl).elim
    | name r n => exact (hName r n rfl).elim
    | paren r inner => exact (hParen r inner rfl).elim
    | unary r op operand =>
      cases op with
      | not => exact (hNot r operand rfl).elim
      | neg | len | bnot => exact .empty
    | binary r op lhs rhs =>
      cases op with
      | and => exact (hAnd r lhs rhs rfl).elim
      | or => exact (hOr r lhs rhs rfl).elim
      | eq => exact (hEq r lhs rhs rfl).elim
      | ne => exact (hNe r lhs rhs rfl).elim
      | _ => exact .empty
    | vararg | number | string | function | table | index | call | methodCall => exact .empty

/-- Narrowing facts are sound: when a condition evaluates to a value whose truth is `outcome`, the
names it promises falsy for this outcome are nil or false, and the names it promises truthy are not
nil. -/
theorem narrowing_sound (e : Exp) (σ : String → Value) (ι : Exp → Option Value) (v : Value)
    (outcome : Bool) (heval : e.eval σ ι = some v) (houtcome : v.truthy = outcome) :
    (∀ n, (e.falsyWhen outcome).contains n = true → σ n = .nil ∨ σ n = .bool false) ∧
      (∀ n, (e.truthyWhen outcome).contains n = true → σ n ≠ .nil) := by
  subst houtcome
  have h := promise_of_eval v heval
  exact ⟨fun n hn => Value.eq_nil_or_false (h.falsy n hn), h.present⟩

/-- The condition `((x and p) or (nil ~= x and f())) and not (y or z)`. -/
def nestedGuard : Exp :=
  let x := name default "x"
  .binary default .and
    (.paren default (.binary default .or (.binary default .and x (.name default "p"))
      (.binary default .and (.binary default .ne (.nil default) x)
        (.call default (.name default "f") []))))
    (.unary default .not
      (.paren default (.binary default .or (.name default "y") (.name default "z"))))

/-- A state in which `nestedGuard` holds by its second alternative. -/
def nestedGuardNames : String → Value
  | "x" => .string "here"
  | "y" => .bool false
  | _ => .nil

theorem narrowing_sound_nestedGuard :
    nestedGuard.eval nestedGuardNames (fun _ => some (.object 0)) = some (.bool true) ∧
      (nestedGuard.falsyWhen true).names = ["y", "z"] ∧
      (nestedGuard.truthyWhen true).names = ["x"] ∧
      (∀ n, (nestedGuard.falsyWhen true).contains n = true →
        nestedGuardNames n = .nil ∨ nestedGuardNames n = .bool false) ∧
      (∀ n, (nestedGuard.truthyWhen true).contains n = true → nestedGuardNames n ≠ .nil) :=
  ⟨by decide +kernel, by decide +kernel, by decide +kernel,
    narrowing_sound nestedGuard nestedGuardNames (fun _ => some (.object 0)) (.bool true) true
    (by decide +kernel) rfl⟩

end Exp

end LuaAnalysis
