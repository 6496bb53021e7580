import LuaAnalysis.Text.Position

/-!
# Located characters

A source text is read as a list of glyphs: characters that know where they start and where the next one starts. The
four spellings of a line end (`\n`, `\r`, `\r\n`, `\n\r`) are one glyph whose character is `\n`, so nothing that reads
glyphs has to know them.
-/

namespace LuaAnalysis

structure Glyph where
  char : Char
  range : TextRange
deriving DecidableEq, Repr, Inhabited

namespace Glyph

def isLineEnd (c : Char) : Bool :=
  c == '\n' || c == '\r'

/-- Whether `d` right after the line end `c` belongs to it. -/
def joins (c d : Char) : Bool :=
  isLineEnd c && isLineEnd d && c != d

def ofChars (p : Position) : List Char → List Glyph
  | [] => []
  | [c] =>
    if isLineEnd c then [⟨'\n', p, p.nextLine⟩] else [⟨c, p, p.right c.utf8Size⟩]
  | c :: d :: cs =>
    if joins c d then ⟨'\n', p, p.nextLine⟩ :: ofChars p.nextLine cs
    else if isLineEnd c then ⟨'\n', p, p.nextLine⟩ :: ofChars p.nextLine (d :: cs)
    else ⟨c, p, p.right c.utf8Size⟩ :: ofChars (p.right c.utf8Size) (d :: cs)

def ofText (text : String) : List Glyph :=
  ofChars {} text.toList

def startOf (gs : List Glyph) (stop : Position) : Position :=
  match gs with
  | [] => stop
  | g :: _ => g.range.start

def endOf (p : Position) (gs : List Glyph) : Position :=
  match gs.getLast? with
  | none => p
  | some g => g.range.stop

def chars (gs : List Glyph) : List Char :=
  gs.map (·.char)

/-- The characters from the start that satisfy `p`. -/
def takeWhile (p : Char → Bool) : List Glyph → List Char
  | [] => []
  | g :: gs => if p g.char then g.char :: takeWhile p gs else []

def startsWith : List Char → List Glyph → Bool
  | [], _ => true
  | _ :: _, [] => false
  | c :: cs, g :: gs => g.char == c && startsWith cs gs

end Glyph

end LuaAnalysis
