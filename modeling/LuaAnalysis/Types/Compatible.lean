import LuaAnalysis.Text.Blank

/-!
# Which types may flow into which

Type names are texts of annotations. `a?` allows nil, `a|b` allows either side, `any` and `unknown` allow everything,
numbers and integers are interchangeable, and a name that is not primitive is a class of tables. Where the actual type
is a union or optional, nothing is refused.
-/

namespace LuaAnalysis.Text

theorem length_dropEndWhile_le (p : Char → Bool) (cs : List Char) :
    (dropEndWhile p cs).length ≤ cs.length := by
  have h := (List.dropWhile_suffix p (l := cs.reverse)).length_le
  simpa [dropEndWhile] using h

theorem length_trim_le (cs : List Char) : (trim cs).length ≤ cs.length :=
  Nat.le_trans (length_dropEndWhile_le _ _) (List.dropWhile_suffix _).length_le

theorem eq_append_of_dropPrefix? {pre cs rest : List Char} (h : dropPrefix? pre cs = some rest) :
    cs = pre ++ rest := by
  induction pre generalizing cs with
  | nil => simpa [dropPrefix?] using h
  | cons p pre ih =>
    cases cs with
    | nil => simp [dropPrefix?] at h
    | cons c cs =>
      by_cases e : p = c
      · subst e
        rw [dropPrefix?, if_pos rfl] at h
        rw [ih h, List.cons_append]
      · simp [dropPrefix?, e] at h

theorem eq_append_of_dropSuffix? {post cs rest : List Char} (h : dropSuffix? post cs = some rest) :
    cs = rest ++ post := by
  unfold dropSuffix? at h
  obtain ⟨r, hr, rfl⟩ := Option.map_eq_some_iff.1 h
  have := eq_append_of_dropPrefix? hr
  have := congrArg List.reverse this
  simpa using this

theorem splitOn_ne_nil (p : Char → Bool) (cs : List Char) : splitOn p cs ≠ [] := by
  cases cs with
  | nil => simp [splitOn]
  | cons c cs =>
    simp only [splitOn]
    split
    · simp
    · split <;> simp

theorem length_le_of_mem_splitOn {p : Char → Bool} {cs m : List Char} (h : m ∈ splitOn p cs) :
    m.length ≤ cs.length := by
  induction cs generalizing m with
  | nil => simp_all [splitOn]
  | cons c cs ih =>
    simp only [splitOn] at h
    split at h
    · rcases List.mem_cons.1 h with rfl | h
      · simp
      · exact Nat.le_succ_of_le (ih h)
    · split at h
      · rename_i e
        exact absurd e (splitOn_ne_nil p cs)
      · rename_i w ws e
        rcases List.mem_cons.1 h with rfl | h
        · simpa using ih (e ▸ List.mem_cons_self)
        · exact Nat.le_succ_of_le (ih (e ▸ List.mem_cons_of_mem _ h))

/-- The pieces of a text that is cut at least once are shorter than the text. -/
theorem length_lt_of_mem_splitOn {p : Char → Bool} {cs m : List Char} (hp : cs.any p = true)
    (h : m ∈ splitOn p cs) : m.length < cs.length := by
  induction cs generalizing m with
  | nil => simp at hp
  | cons c cs ih =>
    simp only [splitOn] at h
    split at h
    · rcases List.mem_cons.1 h with rfl | h
      · simp
      · exact Nat.lt_succ_of_le (length_le_of_mem_splitOn h)
    · rename_i hc
      have hp' : cs.any p = true := by simpa [hc] using hp
      split at h
      · rename_i e
        exact absurd e (splitOn_ne_nil p cs)
      · rename_i w ws e
        rcases List.mem_cons.1 h with rfl | h
        · simpa using ih hp' (e ▸ List.mem_cons_self)
        · exact Nat.lt_succ_of_lt (ih hp' (e ▸ List.mem_cons_of_mem _ h))

end LuaAnalysis.Text

namespace LuaAnalysis.Types

def primitives : List (List Char) :=
  ["nil".toList, "boolean".toList, "number".toList, "integer".toList, "string".toList, "function".toList,
    "table".toList, "thread".toList, "userdata".toList]

def isPrimitive (t : List Char) : Bool :=
  primitives.contains t

def isAny (t : List Char) : Bool :=
  t == "any".toList || t == "unknown".toList

def isNumeric (t : List Char) : Bool :=
  t == "number".toList || t == "integer".toList

/-- Whether a value of type `actual` may stand where the name `expected`, which is neither a union nor optional, is
declared. -/
def plainCompatible (expected actual : List Char) : Bool :=
  if isNumeric expected && isNumeric actual then true
  else
    match isPrimitive expected, isPrimitive actual with
    | true, true => expected == actual
    | false, false => true
    | false, true => actual == "table".toList
    | true, false => expected == "table".toList

/-- Whether a value of type `actual` may stand where `expected` is declared, both without blanks around them. -/
def compatibleTrimmed (expected actual : List Char) : Bool :=
  if expected.isEmpty || actual.isEmpty then true
  else if isAny expected || isAny actual then true
  else
    match _h : Text.dropSuffix? ['?'] expected with
    | some inner => actual == "nil".toList || compatibleTrimmed (Text.trim inner) actual
    | none =>
      if _hu : expected.any (· == '|') then
        (Text.splitOn (· == '|') expected).attach.any fun ⟨m, _⟩ => compatibleTrimmed (Text.trim m) actual
      else if actual.contains '|' || actual.getLast? == some '?' then true
      else plainCompatible expected actual
termination_by expected.length
decreasing_by
  · have := congrArg List.length (Text.eq_append_of_dropSuffix? _h)
    have := Text.length_trim_le inner
    simp only [List.length_append, List.length_singleton] at *
    omega
  · have := Text.length_lt_of_mem_splitOn _hu ‹_›
    have := Text.length_trim_le m
    omega

/-- Whether a value of type `actual` may stand where `expected` is declared. -/
def compatible (expected actual : String) : Bool :=
  compatibleTrimmed (Text.trim expected.toList) (Text.trim actual.toList)

end LuaAnalysis.Types
