import LuaAnalysis.Tree.Basic

/-!
# What a condition proves about names

`falsyWhen e b` are names that are nil or false, and `truthyWhen e b` names that are not nil, whenever `e` evaluates to
something whose truth is `b`. Both are read off the expression alone.
-/

namespace LuaAnalysis

/-- A set of names, in increasing order without repeats. -/
structure NameSet where
  names : List String := []
deriving DecidableEq, Repr, Inhabited

namespace NameSet

def singleton (n : String) : NameSet :=
  ⟨[n]⟩

def contains (s : NameSet) (n : String) : Bool :=
  s.names.contains n

/-- The names of both lists, merged in order. -/
def merge : List String → List String → List String
  | [], ys => ys
  | x :: xs, ys =>
    ys.takeWhile (· < x) ++ x :: merge xs ((ys.dropWhile (· < x)).filter (· ≠ x))

def union (s t : NameSet) : NameSet :=
  ⟨merge s.names t.names⟩

def inter (s t : NameSet) : NameSet :=
  ⟨s.names.filter t.contains⟩

end NameSet

namespace Exp

def nilCompared (lhs rhs : Exp) : NameSet :=
  let name? :=
    if rhs.isNil then lhs.unparen.asName?
    else if lhs.isNil then rhs.unparen.asName?
    else none
  match name? with
  | some n => .singleton n
  | none => {}

def falsyWhen : Exp → Bool → NameSet
  | name _ n, false => .singleton n
  | paren _ inner, outcome => inner.falsyWhen outcome
  | unary _ .not operand, outcome => operand.falsyWhen (!outcome)
  | binary _ .eq lhs rhs, true => nilCompared lhs rhs
  | binary _ .ne lhs rhs, false => nilCompared lhs rhs
  | binary _ .and lhs rhs, true => (lhs.falsyWhen true).union (rhs.falsyWhen true)
  | binary _ .or lhs rhs, false => (lhs.falsyWhen false).union (rhs.falsyWhen false)
  | binary _ .or lhs rhs, true => (lhs.falsyWhen true).inter (rhs.falsyWhen true)
  | binary _ .and lhs rhs, false => (lhs.falsyWhen false).inter (rhs.falsyWhen false)
  | _, _ => {}

def truthyWhen : Exp → Bool → NameSet
  | name _ n, true => .singleton n
  | paren _ inner, outcome => inner.truthyWhen outcome
  | unary _ .not operand, outcome => operand.truthyWhen (!outcome)
  | binary _ .ne lhs rhs, true => nilCompared lhs rhs
  | binary _ .eq lhs rhs, false => nilCompared lhs rhs
  | binary _ .and lhs rhs, true => (lhs.truthyWhen true).union (rhs.truthyWhen true)
  | binary _ .or lhs rhs, false => (lhs.truthyWhen false).union (rhs.truthyWhen false)
  | binary _ .or lhs rhs, true => (lhs.truthyWhen true).inter (rhs.truthyWhen true)
  | binary _ .and lhs rhs, false => (lhs.truthyWhen false).inter (rhs.truthyWhen false)
  | _, _ => {}

end Exp

end LuaAnalysis
