import LuaAnalysis.Text.Blank

/-!
# Paths on the disk

A path is kept as it was written: what it starts with, and the pieces between its slashes. Two paths are compared by their
steps, which leave out empty pieces and dots; so one file may have paths with different steps.
-/

namespace LuaAnalysis

inductive PathStart where
  | here
  /-- A dot, which is a step of its own at the start of a path. -/
  | dot
  | root
deriving DecidableEq, Repr, Inhabited

structure DiskPath where
  start : PathStart := .here
  pieces : List String := []
deriving DecidableEq, Repr, Inhabited

inductive PathStep where
  | root | dot | parent
  | name (text : String)
deriving DecidableEq, Repr, Inhabited

namespace PathStep

def rank : PathStep → Nat
  | root => 0
  | dot => 1
  | parent => 2
  | name _ => 3

def label : PathStep → String
  | name text => text
  | _ => ""

/-- Names come after all other steps, in the order of their text. -/
instance : Ord PathStep := ⟨fun a b => (compare a.rank b.rank).then (compare a.label b.label)⟩

/-- The step that a piece stands for; none for an empty piece and a dot. -/
def ofPiece? : String → Option PathStep
  | "" | "." => none
  | ".." => some parent
  | text => some (name text)

end PathStep

namespace DiskPath

/-! ## Text -/

def split (cs : List Char) : List String :=
  (Text.splitOn (· == '/') cs).map String.ofList

def ofText (text : String) : DiskPath :=
  match text.toList with
  | '/' :: cs => { start := .root, pieces := split cs }
  | ['.'] => { start := .dot }
  | '.' :: '/' :: cs => { start := .dot, pieces := split cs }
  | cs => { pieces := split cs }

def text (p : DiskPath) : String :=
  let body := "/".intercalate p.pieces
  match p.start with
  | .here => body
  | .root => "/" ++ body
  | .dot => if p.pieces.isEmpty then "." else "./" ++ body

/-! ## Steps -/

def startSteps (p : DiskPath) : List PathStep :=
  match p.start with
  | .here => []
  | .dot => [.dot]
  | .root => [.root]

def steps (p : DiskPath) : List PathStep :=
  p.startSteps ++ p.pieces.filterMap PathStep.ofPiece?

def sameSteps (p q : DiskPath) : Bool :=
  p.steps = q.steps

/-- The order of paths: step by step, and a path before those that go on from it. -/
def le (p q : DiskPath) : Bool :=
  compare p.steps q.steps ≠ .gt

def isIdle (piece : String) : Bool :=
  (PathStep.ofPiece? piece).isNone

def trimEnd (pieces : List String) : List String :=
  (pieces.reverse.dropWhile isIdle).reverse

def parent? (p : DiskPath) : Option DiskPath :=
  match trimEnd p.pieces with
  | [] => if p.start = .dot then some {} else none
  | pieces => some { p with pieces := trimEnd pieces.dropLast }

/-- A path with its parents, the nearest first; a parent has fewer pieces or starts with less. -/
def ancestors (p : DiskPath) : List DiskPath :=
  go (p.pieces.length + 2) p
where
  go : Nat → DiskPath → List DiskPath
    | 0, _ => []
    | n + 1, p => p :: ((p.parent?.map (go n)).getD [])

def join (p q : DiskPath) : DiskPath :=
  if q.start = .root || p.text.isEmpty then q
  else if p.text.toList.getLast? = some '/' then ofText (p.text ++ q.text)
  else ofText (p.text ++ "/" ++ q.text)

/-- The pieces after the first `n` steps. -/
def dropSteps : Nat → List String → List String
  | 0, pieces => pieces.dropWhile isIdle
  | _ + 1, [] => []
  | n + 1, piece :: pieces => if isIdle piece then dropSteps (n + 1) pieces else dropSteps n pieces

def relativeTo? (p base : DiskPath) : Option DiskPath :=
  if !base.steps.isPrefixOf p.steps then none
  else if base.steps.isEmpty then some { p with pieces := trimEnd p.pieces }
  else some { pieces := trimEnd (dropSteps (base.steps.length - p.startSteps.length) p.pieces) }

/-! ## Names -/

def fileName? (p : DiskPath) : Option String :=
  match p.steps.getLast? with
  | some (.name text) => some text
  | _ => none

/-- What follows the last dot of the name, unless the name starts with that dot. -/
def extension? (p : DiskPath) : Option String := do
  let name ← p.fileName?
  match (Text.splitOn (· == '.') name.toList).reverse with
  | last :: before :: more => if more.isEmpty && before.isEmpty then none else some (String.ofList last)
  | _ => none

end DiskPath

end LuaAnalysis
