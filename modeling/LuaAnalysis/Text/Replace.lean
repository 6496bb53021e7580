import LuaAnalysis.Text.Blank

/-!
# Replacing a piece of text
-/

namespace LuaAnalysis.Text

/-- `replaceAll` after the next `skip` characters, which belong to a place already replaced. -/
def replaceFrom (pat sub : List Char) : Nat → List Char → List Char
  | _, [] => []
  | skip + 1, _ :: cs => replaceFrom pat sub skip cs
  | 0, c :: cs =>
    if (dropPrefix? pat (c :: cs)).isSome then sub ++ replaceFrom pat sub (pat.length - 1) cs
    else c :: replaceFrom pat sub 0 cs

/-- The text with `sub` in place of every `pat`, searched from the left; an empty `pat` stands nowhere. -/
def replaceAll (pat sub cs : List Char) : List Char :=
  if pat.isEmpty then cs else replaceFrom pat sub 0 cs

end LuaAnalysis.Text
