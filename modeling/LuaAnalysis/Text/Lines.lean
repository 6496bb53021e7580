import LuaAnalysis.Text.Blank

/-!
# The lines of a text

A text is cut at every `\n`, and what follows the last one is a line unless it is empty. `lineRanges` says where the bytes
of each line stand, a carriage return before the line end included; `lines` leaves it out.
-/

namespace LuaAnalysis.Text

/-- Where the lines of a text start and stop, in bytes. The line that is read starts at `start`, the text at `offset`. -/
def lineRanges (start offset : Nat) : List Char → List (Nat × Nat)
  | [] => if start < offset then [(start, offset)] else []
  | c :: cs =>
    if c = '\n' then (start, offset) :: lineRanges (offset + 1) (offset + 1) cs
    else lineRanges start (offset + c.utf8Size) cs

def dropReturn (cs : List Char) : List Char :=
  (dropSuffix? ['\r'] cs).getD cs

/-- Drops the carriage return of every line that a line feed ended. -/
def dropReturns : List (List Char) → List (List Char)
  | [] => []
  | [p] => if p.isEmpty then [] else [p]
  | p :: q :: ps => dropReturn p :: dropReturns (q :: ps)

/-- The lines of a text, each without its line feed and without a carriage return before that. -/
def lines (cs : List Char) : List (List Char) :=
  dropReturns (splitOn (· == '\n') cs)

def linesOf (text : String) : List String :=
  (lines text.toList).map String.ofList

def slice (text : String) (range : Nat × Nat) : String :=
  String.Pos.Raw.extract text ⟨range.1⟩ ⟨range.2⟩

/-- The line with a number, counted from zero, with the carriage return that it may end in. -/
def line? (text : String) (n : Nat) : Option String :=
  (lineRanges 0 0 text.toList)[n]?.map (slice text)

end LuaAnalysis.Text
