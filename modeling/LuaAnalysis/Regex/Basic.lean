import LuaAnalysis.Regex.CharSet

/-!
# Regular expressions

A match is found by following, from a place in the text, all places where an expression may stop. Only whether there is
a match is asked, so that neither the order of alternatives nor greed matters.
-/

namespace LuaAnalysis

/-- A place in a text: the characters before it, the last first, and the ones after it. -/
structure Cursor where
  before : List Char
  after : List Char
deriving DecidableEq, Repr, Inhabited

namespace Cursor

def ofText (text : String) : Cursor :=
  ⟨[], text.toList⟩

def onward (before : List Char) : List Char → List Cursor
  | [] => [⟨before, []⟩]
  | c :: cs => ⟨before, c :: cs⟩ :: onward (c :: before) cs

end Cursor

/-- A condition on a place in a text. -/
inductive Assertion where
  | textStart | textEnd
  /-- At the start or the end of a line; with `crlf` a line also ends at a carriage return. -/
  | lineStart (crlf : Bool) | lineEnd (crlf : Bool)
  /-- Between two characters of which exactly one is in the set, or nowhere near such a place. -/
  | boundary (word : CharSet) | noBoundary (word : CharSet)
  /-- At the first or after the last character of a run in the set. -/
  | wordStart (word : CharSet) | wordEnd (word : CharSet)
  /-- Nothing of the set before, or after. -/
  | wordStartHalf (word : CharSet) | wordEndHalf (word : CharSet)
deriving DecidableEq, Repr, Inhabited

namespace Assertion

def headIn (s : CharSet) (cs : List Char) : Bool :=
  (cs.head?.map s.contains).getD false

def holds (a : Assertion) (p : Cursor) : Bool :=
  match a with
  | textStart => p.before.isEmpty
  | textEnd => p.after.isEmpty
  | lineStart false => p.before.isEmpty || p.before.head? == some '\n'
  | lineEnd false => p.after.isEmpty || p.after.head? == some '\n'
  | lineStart true =>
    p.before.isEmpty || p.before.head? == some '\n' || (p.before.head? == some '\r' && p.after.head? != some '\n')
  | lineEnd true =>
    p.after.isEmpty || p.after.head? == some '\r' || (p.after.head? == some '\n' && p.before.head? != some '\r')
  | boundary w => headIn w p.before != headIn w p.after
  | noBoundary w => headIn w p.before == headIn w p.after
  | wordStart w => !headIn w p.before && headIn w p.after
  | wordEnd w => headIn w p.before && !headIn w p.after
  | wordStartHalf w => !headIn w p.before
  | wordEndHalf w => !headIn w p.after

end Assertion

inductive Regex where
  | empty
  | chars (set : CharSet)
  | assertion (a : Assertion)
  | cat (first second : Regex)
  | alt (left right : Regex)
  /-- At least `min` and at most `max` times, one after the other. -/
  | rep (inner : Regex) (min : Nat) (max : Option Nat)
deriving DecidableEq, Repr, Inhabited

namespace Regex

/-- All places that `step` leads to from some places, each once. -/
def advance (step : Cursor → List Cursor) (ps : List Cursor) : List Cursor :=
  (ps.flatMap step).eraseDups

def exactly (step : Cursor → List Cursor) : Nat → List Cursor → List Cursor
  | 0, ps => ps
  | n + 1, ps => exactly step n (advance step ps)

def upTo (step : Cursor → List Cursor) : Nat → List Cursor → List Cursor
  | 0, ps => ps
  | n + 1, ps =>
    let next := (advance step ps).filter (!ps.contains ·)
    if next.isEmpty then ps else upTo step n (ps ++ next)

/-- The places where a match that starts at a place may stop. -/
def ends : Regex → Cursor → List Cursor
  | empty, p => [p]
  | chars set, p =>
    match p.after with
    | c :: cs => if set.contains c then [⟨c :: p.before, cs⟩] else []
    | [] => []
  | assertion a, p => if a.holds p then [p] else []
  | cat a b, p => advance b.ends (a.ends p)
  | alt a b, p => (a.ends p ++ b.ends p).eraseDups
  | rep r min max, p =>
    let ps := exactly r.ends min [p]
    match max with
    | some m => upTo r.ends (m - min) ps
    -- Every step that leads to a new place takes a character.
    | none => upTo r.ends (p.after.length + 1) ps

def isMatch (r : Regex) (text : String) : Bool :=
  (Cursor.onward [] text.toList).any fun p => !(r.ends p).isEmpty

end Regex

end LuaAnalysis
