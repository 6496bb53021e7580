/-!
# White space

`isBlank` is the Unicode property White_Space. Trimming and splitting into words use it everywhere.
-/

namespace LuaAnalysis.Text

def isBlank (c : Char) : Bool :=
  let n := c.toNat
  (9 ≤ n && n ≤ 13) || n == 0x20 || n == 0x85 || n == 0xA0 || n == 0x1680 || (0x2000 ≤ n && n ≤ 0x200A)
    || n == 0x2028 || n == 0x2029 || n == 0x202F || n == 0x205F || n == 0x3000

def dropEndWhile (p : Char → Bool) (cs : List Char) : List Char :=
  (cs.reverse.dropWhile p).reverse

def trim (cs : List Char) : List Char :=
  dropEndWhile isBlank (cs.dropWhile isBlank)

/-- The pieces between the characters that satisfy `p`; a text without one is one piece. -/
def splitOn (p : Char → Bool) : List Char → List (List Char)
  | [] => [[]]
  | c :: cs =>
    if p c then [] :: splitOn p cs
    else
      match splitOn p cs with
      | [] => [[c]]
      | w :: ws => (c :: w) :: ws

/-- The words of a text: its longest pieces without white space. -/
def words (cs : List Char) : List (List Char) :=
  (splitOn isBlank cs).filter (!·.isEmpty)

/-- What follows `pre` at the start of a text. -/
def dropPrefix? : List Char → List Char → Option (List Char)
  | [], cs => some cs
  | _ :: _, [] => none
  | p :: pre, c :: cs => if p = c then dropPrefix? pre cs else none

/-- What stands before `post` at the end of a text. -/
def dropSuffix? (post cs : List Char) : Option (List Char) :=
  (dropPrefix? post.reverse cs.reverse).map List.reverse

/-- What follows the first place where `pat` stands, and what stands before it. -/
def splitOnce? (pat : List Char) : List Char → Option (List Char × List Char)
  | [] => (dropPrefix? pat []).map ([], ·)
  | c :: cs =>
    match dropPrefix? pat (c :: cs) with
    | some rest => some ([], rest)
    | none => (splitOnce? pat cs).map fun (before, rest) => (c :: before, rest)

def containsText (pat cs : List Char) : Bool :=
  (splitOnce? pat cs).isSome

end LuaAnalysis.Text
