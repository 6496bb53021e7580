import LuaAnalysis.Toml.Scalar

/-!
# Reading TOML

Arrays and braced tables may lie in each other up to a fixed depth, on which reading recurses. Loops over lines, elements
and keys are bounded by the characters left.
-/

namespace LuaAnalysis.Toml

namespace Read

/-! ## Keys -/

def isBareKeyChar (c : Char) : Bool :=
  c.isAlphanum || c == '_' || c == '-'

def simpleKey : ReadM String := do
  match ← peek? with
  | some '"' => basicString
  | some '\'' => literalString
  | _ =>
    let cs ← run isBareKeyChar
    if cs.isEmpty then failure
    return String.ofList cs

def moreKeys : Nat → ReadM (List String)
  | 0 => return []
  | n + 1 => do
    blanks
    if ← eat "." then
      blanks
      return (← simpleKey) :: (← moreKeys n)
    else return []

/-- How deep values and keys may go. -/
def maxDepth : Nat := 80

def key : ReadM (List String × String) := do
  blanks
  let keys := (← simpleKey) :: (← moreKeys ((← get).length + 1))
  if maxDepth ≤ keys.length then failure
  match keys.getLast? with
  | some last => return (keys.dropLast, last)
  | none => failure

/-! ## Values -/

def comment : ReadM Unit := do
  exactly "#"
  discard (run isCommentChar)

def blankLines : Nat → ReadM Unit
  | 0 => return
  | n + 1 => do
    blanks
    match ← peek? with
    | some '#' =>
      comment
      newline
      blankLines n
    | some '\n' | some '\r' =>
      newline
      blankLines n
    | _ => return

def skipBlankLines : ReadM Unit := do
  blankLines ((← get).length + 1)

/-- The values of an array after its opening bracket. -/
def elements (value : ReadM Item) : Nat → ReadM (List Item)
  | 0 => failure
  | n + 1 => do
    skipBlankLines
    if ← eat "]" then return []
    let v ← value
    skipBlankLines
    if ← eat "," then return v :: (← elements value n)
    exactly "]"
    return [v]

def inlineEntries (value : ReadM Item) : Nat → Table → ReadM Table
  | 0, _ => failure
  | n + 1, t => do
    let (path, last) ← key
    exactly "="
    blanks
    let v ← value
    blanks
    match t.addInline? path last v with
    | none => failure
    | some t =>
      if ← eat "," then inlineEntries value n t
      else
        exactly "\x7d"
        return t

/-- A value that holds others at most `levels` deep. -/
def value : Nat → ReadM Item
  | 0 => scalar
  | levels + 1 => do
    match ← peek? with
    | some '[' =>
      discard next
      return .array (← elements (value levels) ((← get).length + 1))
    | some '\x7b' =>
      discard next
      blanks
      if ← eat "\x7d" then return .inline (.new false false)
      return .inline (← inlineEntries (value levels) ((← get).length + 1) (.new false false))
    | _ => scalar

/-! ## Lines -/

/-- The rest of a line that may only hold a comment. -/
def lineEnd : ReadM Unit := do
  blanks
  if (← peek?) == some '#' then comment
  if !(← get).isEmpty then newline

/-- A document so far, and the path of the table that gets the next entries. -/
structure DocumentState where
  root : Table
  header : List String

def entry (s : DocumentState) : ReadM DocumentState := do
  let (path, last) ← key
  exactly "="
  blanks
  let v ← value (maxDepth - 1)
  lineEnd
  match s.root.changeAt? false s.header fun t => t.addDotted? path last v with
  | some root => return { s with root }
  | none => failure

def header (s : DocumentState) : ReadM DocumentState := do
  let isRepeated ← eat "[["
  if !isRepeated then exactly "["
  let (path, last) ← key
  blanks
  exactly (if isRepeated then "]]" else "]")
  lineEnd
  match if isRepeated then s.root.openNext? path last else s.root.openTable? path last with
  | some root => return { root, header := path ++ [last] }
  | none => failure

def lines : Nat → DocumentState → ReadM DocumentState
  | 0, _ => failure
  | n + 1, s => do
    blanks
    match ← peek? with
    | none => return s
    | some '#' =>
      lineEnd
      lines n s
    | some '\n' | some '\r' =>
      newline
      lines n s
    | some '[' => lines n (← header s)
    | some _ => lines n (← entry s)

end Read

/-- The table of a document; none when the text is no document. A byte order mark at the start is skipped. -/
def parse? (text : String) : Option Table :=
  let cs := match text.toList with
    | '\ufeff' :: cs => cs
    | cs => cs
  ((Read.lines (cs.length + 1) { root := .new false false, header := [] }).run cs).map (·.1.root)

end LuaAnalysis.Toml
