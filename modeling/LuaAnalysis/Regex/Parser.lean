import LuaAnalysis.Regex.Node

/-!
# Reading regular expressions

A pattern is read from left to right with a stack of the groups that are still open; classes keep a stack of brackets and
operators. Only whether a pattern can be read matters to the callers, so that there is one kind of failure. Loops end
with the pattern: their bound is the number of characters left.
-/

namespace LuaAnalysis.Regex

/-- What is left of a pattern, and what has been seen so far. -/
structure ParseState where
  rest : List Char
  ignoreSpace : Bool := false
  names : List String := []
deriving Repr, Inhabited

abbrev ParseM := StateT ParseState Option

namespace Parse

/-! ## Characters -/

/-- The text without leading blanks and comments; a comment goes from `#` to the end of its line. -/
def dropSpace : Bool → List Char → List Char
  | _, [] => []
  | true, c :: cs => dropSpace (c != '\n') cs
  | false, c :: cs => if Text.isBlank c then dropSpace false cs else if c == '#' then dropSpace true cs else c :: cs

def skipSpace : ParseM Unit :=
  modify fun s => if s.ignoreSpace then { s with rest := dropSpace false s.rest } else s

def peek? : ParseM (Option Char) := do
  return (← get).rest.head?

/-- The character after the next one; blanks between them are skipped if they are to be skipped. -/
def peekSecond? : ParseM (Option Char) := do
  let s ← get
  let rest := s.rest.drop 1
  return (if s.ignoreSpace then dropSpace false rest else rest).head?

def next : ParseM Char := do
  match (← get).rest with
  | [] => failure
  | c :: cs =>
    modify fun s => { s with rest := cs }
    return c

def nextSkip : ParseM Char := do
  let c ← next
  skipSpace
  return c

def eat (text : String) : ParseM Bool := do
  match Text.dropPrefix? text.toList (← get).rest with
  | some rest =>
    modify fun s => { s with rest }
    return true
  | none => return false

def notAtEnd : ParseM Unit := do
  if (← get).rest.isEmpty then failure

def left : ParseM Nat := do
  return (← get).rest.length

def takeWhileSkip (p : Char → Bool) : Nat → ParseM (List Char)
  | 0 => return []
  | n + 1 => do
    match ← peek? with
    | some c =>
      if p c then
        discard nextSkip
        return c :: (← takeWhileSkip p n)
      else return []
    | none => return []

/-! ## Escapes -/

def isMeta (c : Char) : Bool :=
  "\\.+*?()|[]\x7b\x7d^$#&-~".toList.contains c

/-- Characters that may stand after a backslash for themselves. -/
def isEscapable (c : Char) : Bool :=
  isMeta c || (c.toNat < 0x80 && !c.isAlphanum && c != '<' && c != '>')

def hexValue (digits : List Char) : Nat :=
  digits.foldl (fun n c => 16 * n + (Char.toNat c - (if c.isDigit then 48 else if c.isUpper then 55 else 87))) 0

def isHex (c : Char) : Bool :=
  c.isDigit || ('a' ≤ c && c ≤ 'f') || ('A' ≤ c && c ≤ 'F')

def charOf (n : Nat) : ParseM Char :=
  if n < 0xD800 || (0xDFFF < n && n ≤ CharSet.top) then return Char.ofNat n else failure

def fixedHex : Nat → ParseM (List Char)
  | 0 => return []
  | n + 1 => do
    let c ← nextSkip
    if !isHex c then failure
    return c :: (← fixedHex n)

/-- The digits after `\x`, `\u` or `\U`: a fixed number, or any number in braces. -/
def hexEscape (width : Nat) : ParseM Char := do
  discard nextSkip
  match ← peek? with
  | some '\x7b' =>
    discard nextSkip
    let digits ← takeWhileSkip isHex (← left)
    if (← nextSkip) != '\x7d' || digits.isEmpty then failure
    charOf (hexValue digits)
  | _ => charOf (hexValue (← fixedHex width))

def propertyText : Nat → ParseM (List Char)
  | 0 => failure
  | n + 1 => do
    let c ← next
    if c == '\x7d' then return []
    skipSpace
    return c :: (← propertyText n)

def property? (text : List Char) : Option (CharSet × Bool) :=
  let value (name value : List Char) : Option CharSet :=
    if ["gc", "generalcategory"].contains (Unicode.looseName name) then
      Unicode.classNamed? (Unicode.looseName value)
    else none
  match Text.splitOnce? ['!', '='] text with
  | some (name, v) => (value name v).map (·, true)
  | none =>
    match Text.splitOnce? [':'] text with
    | some (name, v) => (value name v).map (·, false)
    | none =>
      match Text.splitOnce? ['='] text with
      | some (name, v) => (value name v).map (·, false)
      | none => (Unicode.classNamed? (Unicode.looseName text)).map (·, false)

def propertyClass (negated : Bool) : ParseM ClassItem := do
  discard nextSkip
  let text ← match ← peek? with
    | some '\x7b' => do
      discard nextSkip
      propertyText (← left)
    | some '\\' => failure
    | _ => do pure [← nextSkip]
  match property? text with
  | some (set, inverted) => return .property set (negated != inverted)
  | none => failure

/-- A part that is a single character, a class, or a condition. -/
inductive Primitive where
  | char (c : Char)
  | item (i : ClassItem)
  | anchor (a : Anchor)
deriving Inhabited

/-- A word boundary may name the side that it stands on, in braces. Braces that start otherwise are a repetition. -/
def specialBoundary : ParseM Anchor := do
  let s ← get
  match s.rest with
  | '\x7b' :: _ =>
    discard nextSkip
    notAtEnd
    let isNameChar (c : Char) := c.isAlpha || c == '-'
    let name ← takeWhileSkip isNameChar (← left)
    if name.isEmpty then
      set s
      return .wordBoundary
    if (← next) != '\x7d' then failure
    match String.ofList name with
    | "start" => return .wordStart
    | "end" => return .wordEnd
    | "start-half" => return .wordStartHalf
    | "end-half" => return .wordEndHalf
    | _ => failure
  | _ => return .wordBoundary

def escape : ParseM Primitive := do
  discard next
  notAtEnd
  let c := (← peek?).getD '\\'
  if c.isDigit then failure
  match c with
  | 'x' => return .char (← hexEscape 2)
  | 'u' => return .char (← hexEscape 4)
  | 'U' => return .char (← hexEscape 8)
  | 'p' => return .item (← propertyClass false)
  | 'P' => return .item (← propertyClass true)
  | _ =>
    discard next
    if isEscapable c then return .char c
    match c with
    | 'd' => return .item (.letter .digit false)
    | 'D' => return .item (.letter .digit true)
    | 's' => return .item (.letter .space false)
    | 'S' => return .item (.letter .space true)
    | 'w' => return .item (.letter .word false)
    | 'W' => return .item (.letter .word true)
    | 'a' => return .char '\x07'
    | 'f' => return .char '\x0c'
    | 't' => return .char '\t'
    | 'n' => return .char '\n'
    | 'r' => return .char '\r'
    | 'v' => return .char '\x0b'
    | 'A' => return .anchor .textStart
    | 'z' => return .anchor .textEnd
    | 'b' => return .anchor (← specialBoundary)
    | 'B' => return .anchor .noWordBoundary
    | '<' => return .anchor .wordStart
    | '>' => return .anchor .wordEnd
    | _ => failure

/-! ## Classes in brackets -/

def asciiClass? (name : String) : Option CharSet :=
  let digits := (0x30, 0x39)
  let upper := (0x41, 0x5A)
  let lower := (0x61, 0x7A)
  match name with
  | "alnum" => some (.ofRanges [digits, upper, lower])
  | "alpha" => some (.ofRanges [upper, lower])
  | "ascii" => some (.range 0 0x7F)
  | "blank" => some (.ofRanges [(9, 9), (0x20, 0x20)])
  | "cntrl" => some (.ofRanges [(0, 0x1F), (0x7F, 0x7F)])
  | "digit" => some (.ofRanges [digits])
  | "graph" => some (.range 0x21 0x7E)
  | "lower" => some (.ofRanges [lower])
  | "print" => some (.range 0x20 0x7E)
  | "punct" => some (.ofRanges [(0x21, 0x2F), (0x3A, 0x40), (0x5B, 0x60), (0x7B, 0x7E)])
  | "space" => some (.ofRanges [(9, 13), (0x20, 0x20)])
  | "upper" => some (.ofRanges [upper])
  | "word" => some asciiWord
  | "xdigit" => some (.ofRanges [digits, (0x41, 0x46), (0x61, 0x66)])
  | _ => none

def asciiClassAt? (text : List Char) : Option (ClassItem × List Char) := do
  let rest ← Text.dropPrefix? ['[', ':'] text
  let (negated, rest) := match rest with
    | '^' :: cs => (true, cs)
    | cs => (false, cs)
  let rest' ← Text.dropPrefix? [':', ']'] (rest.dropWhile (· != ':'))
  let set ← asciiClass? (String.ofList (rest.takeWhile (· != ':')))
  return (.ascii set negated, rest')

/-- A bracket or an operator that is still open, with what stood before it. -/
inductive ClassFrame where
  | bracket (outer : List ClassItem) (negated : Bool)
  | operator (op : SetOperator) (lhs : ClassSet)
deriving Inhabited

def leadingHyphens : Nat → ParseM (List ClassItem)
  | 0 => return []
  | n + 1 => do
    if (← peek?) == some '-' then
      discard nextSkip
      notAtEnd
      return .range '-' '-' :: (← leadingHyphens n)
    else return []

/-- Opens a class: a caret negates it, and hyphens or one closing bracket stand for themselves. -/
def openClass : ParseM (Bool × List ClassItem) := do
  discard nextSkip
  notAtEnd
  let negated := (← peek?) == some '^'
  if negated then
    discard nextSkip
    notAtEnd
  let hyphens ← leadingHyphens (← left)
  if hyphens.isEmpty && (← peek?) == some ']' then
    discard nextSkip
    notAtEnd
    return (negated, [.range ']' ']'])
  return (negated, hyphens)

def classPrimitive : ParseM Primitive := do
  if (← peek?) == some '\\' then escape else return .char (← next)

def classRange : ParseM ClassItem := do
  let first ← classPrimitive
  skipSpace
  notAtEnd
  let second ← peekSecond?
  if (← peek?) != some '-' || second == some ']' || second == some '-' then
    match first with
    | .char c => return .range c c
    | .item i => return i
    | .anchor _ => failure
  else
    discard nextSkip
    notAtEnd
    match first, ← classPrimitive with
    | .char lo, .char hi => if lo ≤ hi then return .range lo hi else failure
    | _, _ => failure

def closeOperator (stack : List ClassFrame) (set : ClassSet) : ClassSet × List ClassFrame :=
  match stack with
  | .operator op lhs :: stack => (.operation op lhs set, stack)
  | _ => (set, stack)

def setOperator : ParseM (Option SetOperator) := do
  if ← eat "&&" then return some .intersection
  if ← eat "--" then return some .difference
  if ← eat "~~" then return some .symmetricDifference
  return none

/-- Reads a class to its closing bracket. `items` is what has been read since the last bracket or operator. -/
def classLoop : Nat → List ClassItem → List ClassFrame → ParseM ClassItem
  | 0, _, _ => failure
  | n + 1, items, stack => do
    skipSpace
    notAtEnd
    if (← peek?) == some '[' then
      match asciiClassAt? (← get).rest with
      | some (item, rest) =>
        modify fun s => { s with rest }
        classLoop n (items ++ [item]) stack
      | none =>
        let (negated, inner) ← openClass
        classLoop n inner (.bracket items negated :: stack)
    else if (← peek?) == some ']' then
      discard next
      let (set, stack) := closeOperator stack (.items items)
      match stack with
      | [.bracket _ negated] => return .bracketed negated set
      | .bracket outer negated :: stack => classLoop n (outer ++ [.bracketed negated set]) stack
      | _ => failure
    else
      match ← setOperator with
      | some op =>
        let (set, stack) := closeOperator stack (.items items)
        classLoop n [] (.operator op set :: stack)
      | none => classLoop n (items ++ [← classRange]) stack

def bracketClass : ParseM ClassItem := do
  let (negated, items) ← openClass
  classLoop ((← left) + 1) items [.bracket [] negated]

/-! ## Repetitions -/

def dropBlanks : ParseM Unit :=
  modify fun s => { s with rest := s.rest.dropWhile Text.isBlank }

/-- A count, with blanks around it; none where no digit stands. -/
def count? : ParseM (Option Nat) := do
  dropBlanks
  let digits ← takeWhileSkip Char.isDigit (← left)
  dropBlanks
  skipSpace
  if digits.isEmpty then return none
  let n := Unicode.number digits
  if n < 1 <<< 32 then return some n else failure

/-- The least and the greatest number of times, from the opening brace on. -/
def counts : ParseM (Nat × Option Nat) := do
  discard nextSkip
  notAtEnd
  let low? ← count?
  notAtEnd
  let bounds ← match low?, ← peek? with
    | some low, some ',' => do
      discard nextSkip
      notAtEnd
      if (← peek?) == some '\x7d' then pure (low, none)
      else
        match ← count? with
        | some high => if low ≤ high then pure (low, some high) else failure
        | none => failure
    | some low, _ => pure (low, some low)
    | none, _ => failure
  if (← nextSkip) != '\x7d' then failure
  return bounds

/-- Repeats the last part read; flags and nothing cannot be repeated. -/
def repeatLast (parts : List Node) (min : Nat) (max : Option Nat) : ParseM (List Node) := do
  match parts with
  | [] | .empty :: _ | .flags _ :: _ => failure
  | last :: before =>
    -- A question mark asks for as few times as possible, which does not change what matches.
    discard (eat "?")
    return .rep last min max :: before

/-! ## Groups -/

def flagOf? : Char → Option Flag
  | 'i' => some .ignoreCase
  | 'm' => some .multiLine
  | 's' => some .dotMatchesNewline
  | 'U' => some .swapGreed
  | 'u' => some .unicode
  | 'R' => some .crlf
  | 'x' => some .ignoreSpace
  | _ => none

/-- Flags up to a colon or a closing parenthesis; the ones after a hyphen are switched off. No flag stands twice. -/
def flagsLoop : Nat → Bool → List (Flag × Bool) → ParseM (List (Flag × Bool))
  | 0, _, _ => failure
  | n + 1, negated, seen => do
    match ← peek? with
    | some ':' | some ')' => return seen
    | some '-' =>
      if negated then failure
      discard next
      match ← peek? with
      | some ':' | some ')' | none => failure
      | _ => flagsLoop n true seen
    | some c =>
      match flagOf? c with
      | some flag =>
        if seen.any (·.1 == flag) then failure
        discard next
        flagsLoop n negated (seen ++ [(flag, !negated)])
      | none => failure
    | none => failure

def isNameChar (first : Bool) (c : Char) : Bool :=
  let letter := (Unicode.ofCategories ["L", "Nl"]).contains c
  let digit := (Unicode.ofCategories ["N"]).contains c
  c == '_' || letter || (!first && (digit || c == '.' || c == '[' || c == ']'))

/-- The name of a group up to `>`; no name stands twice. -/
def groupName : ParseM Unit := do
  let rest := (← get).rest
  let name := rest.takeWhile (· != '>')
  let text := String.ofList name
  match name, rest.drop name.length with
  | first :: more, '>' :: rest =>
    if !isNameChar true first || !more.all (isNameChar false) then failure
    if (← get).names.contains text then failure
    modify fun s => { s with rest, names := text :: s.names }
  | _, _ => failure

inductive GroupStart where
  /-- Flags for the rest of the enclosing group. -/
  | flags (changes : List (Flag × Bool))
  | group (changes : List (Flag × Bool))
deriving Inhabited

def lookArounds : List String :=
  ["?=", "?!", "?<=", "?<!"]

def groupStart : ParseM GroupStart := do
  discard nextSkip
  let rest := (← get).rest
  if lookArounds.any fun p => (Text.dropPrefix? p.toList rest).isSome then failure
  if ← eat "?P<" then
    groupName
    return .group []
  if ← eat "?<" then
    groupName
    return .group []
  if ← eat "?" then
    let changes ← flagsLoop ((← left) + 1) false []
    if (← next) == ':' then return .group changes
    if changes.isEmpty then failure
    return .flags changes
  return .group []

/-- A group that is still open: the branches and parts before it, its flags, and whether space was ignored before it. -/
structure GroupFrame where
  branches : List Node
  parts : List Node
  changes : List (Flag × Bool)
  ignoreSpace : Bool
deriving Inhabited

/-- Parts in reverse order as one pattern. -/
def joinParts (parts : List Node) : Node :=
  match parts with
  | [] => .empty
  | [n] => n
  | ns => .cat ns.reverse

/-- The branches read before, in reverse order, and the last one, as one pattern. -/
def joinBranches (branches parts : List Node) : Node :=
  match branches with
  | [] => joinParts parts
  | bs => .alt (joinParts parts :: bs).reverse

def applySpaceFlag (changes : List (Flag × Bool)) : ParseM Unit :=
  match changes.find? (·.1 == .ignoreSpace) with
  | some (_, b) => modify fun s => { s with ignoreSpace := b }
  | none => return

/-- Reads a pattern to its end. Branches and parts are in reverse order. -/
def loop : Nat → List GroupFrame → List Node → List Node → ParseM Node
  | 0, _, _, _ => failure
  | n + 1, stack, branches, parts => do
    skipSpace
    match ← peek? with
    | none => if stack.isEmpty then return joinBranches branches parts else failure
    | some '(' =>
      match ← groupStart with
      | .flags changes =>
        applySpaceFlag changes
        loop n stack branches (.flags changes :: parts)
      | .group changes =>
        let frame : GroupFrame := { branches, parts, changes, ignoreSpace := (← get).ignoreSpace }
        applySpaceFlag changes
        loop n (frame :: stack) [] []
    | some ')' =>
      match stack with
      | [] => failure
      | frame :: stack =>
        discard next
        modify fun s => { s with ignoreSpace := frame.ignoreSpace }
        loop n stack frame.branches (.group frame.changes (joinBranches branches parts) :: frame.parts)
    | some '|' =>
      discard next
      loop n stack (joinParts parts :: branches) []
    | some '[' => loop n stack branches (.oneOf (← bracketClass) :: parts)
    | some '?' =>
      discard next
      loop n stack branches (← repeatLast parts 0 (some 1))
    | some '*' =>
      discard next
      loop n stack branches (← repeatLast parts 0 none)
    | some '+' =>
      discard next
      loop n stack branches (← repeatLast parts 1 none)
    | some '\x7b' =>
      if parts.isEmpty then failure
      let (min, max) ← counts
      loop n stack branches (← repeatLast parts min max)
    | some '\\' =>
      match ← escape with
      | .char c => loop n stack branches (.char c :: parts)
      | .item i => loop n stack branches (.oneOf i :: parts)
      | .anchor a => loop n stack branches (.anchor a :: parts)
    | some '.' =>
      discard next
      loop n stack branches (.dot :: parts)
    | some '^' =>
      discard next
      loop n stack branches (.anchor .caret :: parts)
    | some '$' =>
      discard next
      loop n stack branches (.anchor .dollar :: parts)
    | some c =>
      discard next
      loop n stack branches (.char c :: parts)

end Parse

def node? (pattern : String) : Option Node :=
  let rest := pattern.toList
  ((Parse.loop (rest.length + 1) [] [] []).run { rest }).map (·.1)

/-- The expression that a pattern means; none when it cannot be read. -/
def parse? (pattern : String) : Option Regex := do
  let node ← node? pattern
  if maxDepth < node.depth then none
  let (r, _) ← node.regex? {}
  return r

end LuaAnalysis.Regex
