import Mathlib
import LuaAnalysis.Tree.Narrowing

/-!
# Expressions that are the same

`Exp.sameAs` compares trees without their ranges, without the spelling of an index and by the values
of numbers. It is no equality, since functions, tables and the number that is not a number are not
the same as themselves, but it is symmetric and transitive, and whatever is asked about an
expression before a finding is reported has the same answer for expressions that are the same
(`Exp.sameAs_congruence`).
-/

namespace LuaAnalysis

/-! ## Numbers -/

namespace Numeral

open Float.Model in
theorem beq_unpacked_iff {a b : UnpackedFloat} :
    a.beq b = true ↔ (a = b ∧ a ≠ .notANumber) ∨ ∃ s t, a = .zero s ∧ b = .zero t := by
  have hsign : ∀ s t : UnpackedFloat.Sign, compare s t = .eq ↔ s = t := by
    intro s t
    cases s <;> cases t <;> simp <;> decide
  have hpair : ∀ (e e' : Int) (m m' : Nat), (compare e e').then (compare m m') = .eq ↔ m = m' ∧
      e = e' := by
    intro e e' m m'
    rw [Ordering.then_eq_eq, Std.compare_eq_iff_eq, Std.compare_eq_iff_eq, and_comm]
  rw [UnpackedFloat.beq, beq_iff_eq]
  cases a with
  | notANumber => simp [UnpackedFloat.compare]
  | infinity s => cases b <;> cases s <;> simp [UnpackedFloat.compare, hsign]
  | zero s =>
    cases b with
    | finite t => cases t <;> simp [UnpackedFloat.compare]
    | infinity t => cases t <;> simp [UnpackedFloat.compare]
    | zero | notANumber => simp [UnpackedFloat.compare]
  | finite s =>
    cases b with
    | finite t => cases s <;> cases t <;> simp [UnpackedFloat.compare, hpair]
    | infinity t => cases s <;> cases t <;> simp [UnpackedFloat.compare]
    | zero | notANumber => cases s <;> simp [UnpackedFloat.compare]

theorem sameValue_iff {a b : Numeral} : a.sameValue b = true ↔
    (a.value.toModel.unpack = b.value.toModel.unpack ∧ a.value.toModel.unpack ≠ .notANumber) ∨
      ∃ s t, a.value.toModel.unpack = .zero s ∧ b.value.toModel.unpack = .zero t :=
  beq_unpacked_iff

theorem sameValue_symm {a b : Numeral} (h : a.sameValue b = true) : b.sameValue a = true := by
  rw [sameValue_iff] at h ⊢
  rcases h with ⟨heq, hne⟩ | ⟨s, t, ha, hb⟩
  · exact .inl ⟨heq.symm, heq ▸ hne⟩
  · exact .inr ⟨t, s, hb, ha⟩

theorem sameValue_trans {a b c : Numeral} (h : a.sameValue b = true) (h' : b.sameValue c = true) :
    a.sameValue c = true := by
  rw [sameValue_iff] at h h' ⊢
  rcases h with ⟨heq, hne⟩ | ⟨s, t, ha, hb⟩
  · rwa [heq]
  · rcases h' with ⟨heq', -⟩ | ⟨-, u, -, hc⟩
    · exact .inr ⟨s, t, ha, heq' ▸ hb⟩
    · exact .inr ⟨s, u, ha, hc⟩

end Numeral

/-! ## Trees -/

namespace Exp

/-- Induction on two expressions that are the same: they are built in the same way from parts that
are the same. -/
theorem sameAs_induction {P : Exp → Exp → Prop} {Q : List Exp → List Exp → Prop}
    (nil : ∀ r r', P (.nil r) (.nil r')) (bool : ∀ r r' b, P (.bool r b) (.bool r' b))
    (vararg : ∀ r r', P (.vararg r) (.vararg r'))
    (number : ∀ r r' x y, x.sameValue y = true → P (.number r x) (.number r' y))
    (string : ∀ r r' s, P (.string r s) (.string r' s))
    (name : ∀ r r' s, P (.name r s) (.name r' s))
    (index : ∀ r r' d d' o o' k k', P o o' → P k k' → P (.index r o k d) (.index r' o' k' d'))
    (call : ∀ r r' f f' as as', P f f' → Q as as' → P (.call r f as) (.call r' f' as'))
    (methodCall : ∀ r r' o o' m m' as as', P o o' → m.text = m'.text → Q as as' →
      P (.methodCall r o m as) (.methodCall r' o' m' as'))
    (binary : ∀ r r' op x x' y y', P x x' → P y y' → P (.binary r op x y) (.binary r' op x' y'))
    (unary : ∀ r r' op x x', P x x' → P (.unary r op x) (.unary r' op x'))
    (paren : ∀ r r' x x', P x x' → P (.paren r x) (.paren r' x'))
    (done : Q [] []) (cons : ∀ a b as bs, P a b → Q as bs → Q (a :: as) (b :: bs)) :
    (∀ a b, a.sameAs b = true → P a b) ∧ ∀ as bs, sameList as bs = true → Q as bs := by
  apply sameAs.mutual_induct
  case case2 =>
    intro r b r' b' h
    obtain rfl : b = b' := by simpa [sameAs] using h
    exact bool r r' b
  case case7 =>
    intro r o k d r' o' k' d' iho ihk h
    rw [sameAs, Bool.and_eq_true] at h
    exact index r r' d d' o o' k k' (iho h.1) (ihk h.2)
  case case13 =>
    intros
    rename_i h
    rw [sameAs] at h
    · cases h
    all_goals assumption
  case case16 =>
    intros
    rename_i h
    rw [sameList] at h
    · cases h
    all_goals assumption
  all_goals
    intros
    simp_all [sameAs, sameList]

theorem sameAs_symm : (∀ a b : Exp, a.sameAs b = true → b.sameAs a = true) ∧
    ∀ as bs, sameList as bs = true → sameList bs as = true := by
  apply sameAs_induction
  case number => exact fun r r' x y h => Numeral.sameValue_symm h
  all_goals
    intros
    simp_all [sameAs, sameList]

theorem sameAs_trans :
    (∀ a b : Exp, a.sameAs b = true → ∀ c, b.sameAs c = true → a.sameAs c = true) ∧
    ∀ as bs, sameList as bs = true → ∀ cs, sameList bs cs = true → sameList as cs = true := by
  apply sameAs_induction
  case number =>
    intro r r' x y h c h'
    cases c with
    | number r'' z => exact Numeral.sameValue_trans h h'
    | _ => cases h'
  case done => exact fun cs h => h
  case cons =>
    intro a b as bs ha has cs h
    cases cs with
    | nil => cases h
    | cons c cs => simp_all [sameList]
  all_goals
    intros
    rename_i c h
    cases c <;> simp_all [sameAs]

/-! ## What is asked about an expression -/

def chainNames? (e : Exp) : Option (List String) :=
  e.memberChain?.map (·.map (·.text))

/-- Nothing that is asked about an expression tells `a` from `b`. -/
structure Alike (a b : Exp) : Prop where
  hasCall : a.hasCall = b.hasCall
  isNil : a.isNil = b.isNil
  asName : a.unparen.asName? = b.unparen.asName?
  asString : a.asString? = b.asString?
  falsyWhen : ∀ outcome, a.falsyWhen outcome = b.falsyWhen outcome
  truthyWhen : ∀ outcome, a.truthyWhen outcome = b.truthyWhen outcome
  chainNames : a.chainNames? = b.chainNames?

theorem Alike.nilCompared {l r l' r' : Exp} (h : Alike l l') (h' : Alike r r') :
    Exp.nilCompared l r = Exp.nilCompared l' r' := by
  simp only [Exp.nilCompared, h.isNil, h'.isNil, h.asName, h'.asName]

theorem chainNames?_index {r : TextRange} {o k : Exp} {d : Bool} :
    (index r o k d).chainNames? = k.asString?.bind fun s => o.chainNames?.map (· ++ [s]) := by
  cases k with
  | string r' s => simp [chainNames?, memberChain?, asString?, Function.comp_def]
  | _ => rfl

theorem Alike.binary {l r l' r' : Exp} {x x' : TextRange} {op : BinOp} (h : Alike l l')
    (h' : Alike r r') : Alike (.binary x op l r) (.binary x' op l' r') where
  hasCall := by simp only [Exp.hasCall, h.hasCall, h'.hasCall]
  isNil := rfl
  asName := rfl
  asString := rfl
  falsyWhen outcome := by
    cases op <;> cases outcome <;>
      simp only [Exp.falsyWhen, h.falsyWhen, h'.falsyWhen, h.nilCompared h']
  truthyWhen outcome := by
    cases op <;> cases outcome <;>
      simp only [Exp.truthyWhen, h.truthyWhen, h'.truthyWhen, h.nilCompared h']
  chainNames := rfl

theorem alike_of_sameAs : ∀ a b : Exp, a.sameAs b = true → Alike a b := by
  refine (sameAs_induction (Q := fun _ _ => True) ?nil ?bool ?vararg ?number ?string ?name ?index
    ?call ?methodCall
    (fun r r' op _ _ _ _ h h' => h.binary h') ?unary ?paren trivial fun _ _ _ _ _ _ => trivial).1
  case index =>
    intro r r' d d' o o' k k' ho hk
    refine ⟨?_, rfl, rfl, rfl, fun _ => rfl, fun _ => rfl, ?_⟩
    · simp only [Exp.hasCall, ho.hasCall, hk.hasCall]
    · rw [chainNames?_index, chainNames?_index, ho.chainNames, hk.asString]
  case unary =>
    intro r r' op x x' h
    refine ⟨h.hasCall, rfl, rfl, rfl, fun outcome => ?_, fun outcome => ?_, rfl⟩
    · cases op <;> first | exact h.falsyWhen (!outcome) | rfl
    · cases op <;> first | exact h.truthyWhen (!outcome) | rfl
  case paren =>
    intro r r' x x' h
    exact ⟨h.hasCall, h.isNil, h.asName, rfl, h.falsyWhen, h.truthyWhen, rfl⟩
  case name =>
    intro r r' s
    exact ⟨rfl, rfl, rfl, rfl,
      fun outcome => by cases outcome <;> rfl, fun outcome => by cases outcome <;> rfl, rfl⟩
  all_goals
    intros
    exact ⟨rfl, rfl, rfl, rfl, fun _ => rfl, fun _ => rfl, rfl⟩

/-- Being the same is symmetric and transitive, and expressions that are the same have calls or
none, prove the same names nil or not nil, and name the same members. -/
theorem sameAs_congruence {a b : Exp} (h : a.sameAs b = true) :
    b.sameAs a = true ∧ (∀ c, b.sameAs c = true → a.sameAs c = true) ∧ a.hasCall = b.hasCall ∧
    a.isNil = b.isNil ∧
      (∀ outcome, a.falsyWhen outcome = b.falsyWhen outcome ∧
        a.truthyWhen outcome = b.truthyWhen outcome) ∧
      a.memberChain?.map (·.map (·.text)) = b.memberChain?.map (·.map (·.text)) := by
  have ha := alike_of_sameAs a b h
  exact ⟨sameAs_symm.1 a b h, sameAs_trans.1 a b h, ha.hasCall, ha.isNil,
    fun outcome => ⟨ha.falsyWhen outcome, ha.truthyWhen outcome⟩, ha.chainNames⟩

/-- `x.y == 16`, where the range and the spellings of the index and of the number are free. -/
def indexedSixteen (range : TextRange) (dotted isFloat : Bool) : Exp :=
  .binary range .eq (.index range (.name range "x") (.string range "y") dotted)
    (.number range ⟨0x4030000000000000, isFloat⟩)

theorem sameAs_congruence_spellings :
    (indexedSixteen default true false).sameAs
      (indexedSixteen ⟨⟨1, 0⟩, ⟨1, 14⟩⟩ false true) = true ∧
      (indexedSixteen ⟨⟨1, 0⟩, ⟨1, 14⟩⟩ false true).sameAs (indexedSixteen default true false) =
        true := by
  have h : (indexedSixteen default true false).sameAs
      (indexedSixteen ⟨⟨1, 0⟩, ⟨1, 14⟩⟩ false true) = true := by
    decide +kernel
  exact ⟨h, (sameAs_congruence h).1⟩

end Exp

end LuaAnalysis
