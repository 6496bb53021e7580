import LuaAnalysis.OrderedMap
import LuaAnalysis.Text.Lines

/-!
# Directives in comments

A comment may switch off diagnostics on its own line or on the next one. It lists the kinds by name or code, with commas
between them; an empty list means every kind. Of two directives for one line the later one counts.
-/

namespace LuaAnalysis

/-- The kinds that are switched off on each line that has a directive; an empty list stands for every kind. -/
structure Directives where
  byLine : OrderedMap Nat (List String) := {}
deriving DecidableEq, Repr, Inhabited

namespace Directives

def kinds (rest : List Char) : List String :=
  (((Text.splitOn (· == ',') rest).map Text.trim).filter (!·.isEmpty)).map String.ofList

/-- The directive in line `n`: the line that it is for and the kinds that it lists. The comment is taken to start at
the first two dashes of the line. -/
def ofLine? (n : Nat) (line : List Char) : Option (Nat × List String) := do
  let (_, rest) ← Text.splitOnce? ['-', '-'] line
  let comment := Text.trim (rest.dropWhile (· == '-'))
  match Text.dropPrefix? "luma-disable-next-line".toList comment with
  | some rest => some (n + 1, kinds rest)
  | none => (Text.dropPrefix? "luma-disable-line".toList comment).map fun rest => (n, kinds rest)

def ofLines (n : Nat) : List (List Char) → List (Nat × List String)
  | [] => []
  | l :: ls => (ofLine? n l).toList ++ ofLines (n + 1) ls

def add (d : Directives) (line : Nat) (kinds : List String) : Directives :=
  ⟨d.byLine.insert line kinds⟩

def ofText (text : String) : Directives :=
  (ofLines 0 (Text.lines text.toList)).foldl (fun d (line, kinds) => d.add line kinds) {}

def isDisabled (d : Directives) (line : Nat) (name code : String) : Bool :=
  match d.byLine.get? line with
  | none => false
  | some kinds => kinds.isEmpty || kinds.any fun k => k == name || k == code

def size (d : Directives) : Nat :=
  d.byLine.size

end Directives

end LuaAnalysis
