import LuaAnalysis.Regex.Basic
import LuaAnalysis.Regex.Unicode

/-!
# Written regular expressions

The tree of a pattern as it is written. What a part means depends on the flags in force, which a pattern can change until
the end of a group.
-/

namespace LuaAnalysis.Regex

inductive Flag where
  | ignoreCase | multiLine | dotMatchesNewline | swapGreed | unicode | crlf | ignoreSpace
deriving DecidableEq, Repr, Inhabited

/-- The flags in force that decide what a pattern matches. -/
structure Flags where
  ignoreCase : Bool := false
  multiLine : Bool := false
  dotMatchesNewline : Bool := false
  unicode : Bool := true
  crlf : Bool := false
deriving DecidableEq, Repr, Inhabited

def Flags.set (f : Flags) : Flag × Bool → Flags
  | (.ignoreCase, b) => { f with ignoreCase := b }
  | (.multiLine, b) => { f with multiLine := b }
  | (.dotMatchesNewline, b) => { f with dotMatchesNewline := b }
  | (.unicode, b) => { f with unicode := b }
  | (.crlf, b) => { f with crlf := b }
  | (.swapGreed, _) | (.ignoreSpace, _) => f

/-- Classes with a letter: `\d`, `\s`, `\w`. -/
inductive LetterClass where
  | digit | space | word
deriving DecidableEq, Repr, Inhabited

inductive SetOperator where
  | intersection | difference | symmetricDifference
deriving DecidableEq, Repr, Inhabited

mutual

inductive ClassSet where
  | items (xs : List ClassItem)
  | operation (op : SetOperator) (lhs rhs : ClassSet)

inductive ClassItem where
  | range (lo hi : Char)
  /-- A class written `[:name:]`. -/
  | ascii (set : CharSet) (negated : Bool)
  | letter (kind : LetterClass) (negated : Bool)
  | property (set : CharSet) (negated : Bool)
  | bracketed (negated : Bool) (set : ClassSet)

end

deriving instance Repr for ClassSet, ClassItem
deriving instance Inhabited for ClassSet, ClassItem

inductive Anchor where
  | caret | dollar | textStart | textEnd | wordBoundary | noWordBoundary | wordStart | wordEnd | wordStartHalf
  | wordEndHalf
deriving DecidableEq, Repr, Inhabited

inductive Node where
  | empty
  /-- Flags for the rest of the group. -/
  | flags (changes : List (Flag × Bool))
  | char (c : Char)
  | dot
  | anchor (a : Anchor)
  | oneOf (item : ClassItem)
  | rep (inner : Node) (min : Nat) (max : Option Nat)
  | group (changes : List (Flag × Bool)) (inner : Node)
  | cat (parts : List Node)
  | alt (branches : List Node)
deriving Repr, Inhabited

/-! ## Depth -/

mutual

def ClassSet.depth : ClassSet → Nat
  | .items xs => ClassItem.depths xs
  | .operation _ lhs rhs => max lhs.depth rhs.depth + 1

def ClassItem.depth : ClassItem → Nat
  | .bracketed _ set => set.depth + 1
  | _ => 0

def ClassItem.depths : List ClassItem → Nat
  | [] => 0
  | x :: xs => max x.depth (ClassItem.depths xs)

end

mutual

/-- How deep groups, repetitions, sequences, alternatives and sets lie in each other. -/
def Node.depth : Node → Nat
  | .oneOf item => item.depth
  | .rep inner _ _ => inner.depth + 1
  | .group _ inner => inner.depth + 1
  | .cat parts => Node.depths parts + 1
  | .alt branches => Node.depths branches + 1
  | _ => 0

def Node.depths : List Node → Nat
  | [] => 0
  | n :: ns => max n.depth (Node.depths ns)

end

def maxDepth : Nat := 250

/-! ## Meaning -/

def asciiWord : CharSet :=
  .ofRanges [(0x30, 0x39), (0x41, 0x5A), (0x5F, 0x5F), (0x61, 0x7A)]

def ignoringAsciiCase (s : CharSet) : CharSet :=
  let upper := s.inter (.range 0x41 0x5A)
  let lower := s.inter (.range 0x61 0x7A)
  .ofRanges (s.ranges ++ upper.ranges.map (fun (a, b) => (a + 32, b + 32))
    ++ lower.ranges.map fun (a, b) => (a - 32, b - 32))

namespace Flags

/-- All characters; without the flag for Unicode, all bytes. -/
def everything (f : Flags) : CharSet :=
  if f.unicode then .all else .range 0 0xFF

def complement (f : Flags) (s : CharSet) : CharSet :=
  f.everything.diff s

def fold (f : Flags) (s : CharSet) : CharSet :=
  if !f.ignoreCase then s else if f.unicode then Unicode.ignoringCase s else ignoringAsciiCase s

def foldAndNegate (f : Flags) (negated : Bool) (s : CharSet) : CharSet :=
  let s := f.fold s
  if negated then f.complement s else s

def letterClass (f : Flags) : LetterClass → CharSet
  | .digit => if f.unicode then Unicode.digitChars else .range 0x30 0x39
  | .space => if f.unicode then Unicode.blankChars else .ofRanges [(9, 13), (0x20, 0x20)]
  | .word => if f.unicode then Unicode.wordChars else asciiWord

end Flags

mutual

/-- The characters of what stands between brackets; none when bytes cannot say it. -/
def ClassSet.chars? (f : Flags) : ClassSet → Option CharSet
  | .items xs => ClassItem.union? f xs
  | .operation op lhs rhs => do
    let l := f.fold (← lhs.chars? f)
    let r := f.fold (← rhs.chars? f)
    return match op with
      | .intersection => l.inter r
      | .difference => l.diff r
      | .symmetricDifference => l.symmDiff r

def ClassItem.chars? (f : Flags) : ClassItem → Option CharSet
  | .range lo hi => if f.unicode || hi.toNat ≤ 0x7F then some (.range lo.toNat hi.toNat) else none
  | .ascii set negated => some (f.foldAndNegate negated set)
  | .letter kind negated =>
    let s := f.letterClass kind
    some (if negated then f.complement s else s)
  | .property set negated => if f.unicode then some (f.foldAndNegate negated set) else none
  | .bracketed negated set => do return f.foldAndNegate negated (← set.chars? f)

def ClassItem.union? (f : Flags) : List ClassItem → Option CharSet
  | [] => some {}
  | x :: xs => do return (← x.chars? f).union (← ClassItem.union? f xs)

end

/-- A set of characters; none when it holds bytes that are no characters. -/
def ofSet? (f : Flags) (s : CharSet) : Option Regex :=
  if f.unicode || s.ranges.all fun (_, hi) => hi ≤ 0x7F then some (chars s) else none

def ofAnchor (f : Flags) : Anchor → Regex
  | .caret => assertion (if f.multiLine then .lineStart f.crlf else .textStart)
  | .dollar => assertion (if f.multiLine then .lineEnd f.crlf else .textEnd)
  | .textStart => assertion .textStart
  | .textEnd => assertion .textEnd
  | .wordBoundary => assertion (.boundary (f.letterClass .word))
  | .noWordBoundary => assertion (.noBoundary (f.letterClass .word))
  | .wordStart => assertion (.wordStart (f.letterClass .word))
  | .wordEnd => assertion (.wordEnd (f.letterClass .word))
  | .wordStartHalf => assertion (.wordStartHalf (f.letterClass .word))
  | .wordEndHalf => assertion (.wordEndHalf (f.letterClass .word))

/-- Every character but the ones that end a line, unless the flag includes them. -/
def ofDot? (f : Flags) : Option Regex :=
  if !f.unicode then none
  else if f.dotMatchesNewline then some (chars .all)
  else if f.crlf then some (chars (CharSet.ofRanges [(10, 10), (13, 13)]).compl)
  else some (chars (CharSet.range 10 10).compl)

mutual

def Node.regex? (f : Flags) : Node → Option (Regex × Flags)
  | .empty => some (.empty, f)
  | .flags changes => some (.empty, changes.foldl Flags.set f)
  | .char c => some (.chars (f.fold (.single c)), f)
  | .dot => (ofDot? f).map (·, f)
  | .anchor a => some (ofAnchor f a, f)
  | .oneOf item => do return (← ofSet? f (← item.chars? f), f)
  | .rep inner min max => do
    let (r, f) ← inner.regex? f
    return (.rep r min max, f)
  | .group changes inner => do
    let (r, _) ← inner.regex? (changes.foldl Flags.set f)
    return (r, f)
  | .cat parts => Node.sequence? f parts
  | .alt branches => Node.choice? f branches

def Node.sequence? (f : Flags) : List Node → Option (Regex × Flags)
  | [] => some (.empty, f)
  | n :: ns => do
    let (a, f) ← n.regex? f
    let (b, f) ← Node.sequence? f ns
    return (.cat a b, f)

def Node.choice? (f : Flags) : List Node → Option (Regex × Flags)
  | [] => some (.chars {}, f)
  | n :: ns => do
    let (a, f) ← n.regex? f
    let (b, f) ← Node.choice? f ns
    return (.alt a b, f)

end

end LuaAnalysis.Regex
