import LuaAnalysis.Disk.Path

/-!
# Disks

A disk answers what a path leads to and which files lie below a directory. What runs on a disk is written for any way of
asking it, so that it can run on a file tree that is given as a value as well as on a real disk.
-/

namespace LuaAnalysis

inductive EntryKind where
  | file | directory
deriving DecidableEq, Repr, Inhabited

structure Disk (m : Type → Type) where
  /-- What a path leads to, if anything. -/
  kind? : DiskPath → m (Option EntryKind)
  /-- The bytes of a file, or why there are none. -/
  read : DiskPath → m (Except String (List UInt8))
  /-- The files below a directory, by the names on the way to them; `enters` says which names to follow. -/
  filesBelow : (enters : String → Bool) → DiskPath → m (List (List String))

/-! ## File trees -/

/-- The files below one directory, each with the names on the way to it. A directory is there if a file is below it. -/
structure FileTree where
  files : List (List String × List UInt8) := []
deriving DecidableEq, Repr, Inhabited

namespace FileTree

def kindAt? (t : FileTree) (names : List String) : Option EntryKind :=
  if t.files.any (·.1 == names) then some .file
  else if names.isEmpty || t.files.any (names.isPrefixOf ·.1) then some .directory
  else none

/-- The names that a path leads to, piece by piece; every piece but the first is looked up in a directory. -/
def follow? (t : FileTree) : List String → List String → Option (List String)
  | names, [] => some names
  | names, piece :: pieces =>
    if t.kindAt? names ≠ some .directory then none
    else
      match PathStep.ofPiece? piece with
      | none | some .root | some .dot => t.follow? names pieces
      | some .parent => if names.isEmpty then none else t.follow? names.dropLast pieces
      | some (.name text) => t.follow? (names ++ [text]) pieces

def resolve? (t : FileTree) (p : DiskPath) : Option (List String) :=
  if p.start = .root || p.text.isEmpty then none else t.follow? [] p.pieces

def entryKind? (t : FileTree) (p : DiskPath) : Option EntryKind :=
  (t.resolve? p).bind t.kindAt?

def bytesAt? (t : FileTree) (names : List String) : Option (List UInt8) :=
  (t.files.find? (·.1 == names)).map (·.2)

def missing : String := "No such file or directory (os error 2)"

def isDirectory : String := "Is a directory (os error 21)"

def read (t : FileTree) (p : DiskPath) : Except String (List UInt8) :=
  match t.resolve? p with
  | none => .error missing
  | some names =>
    match t.bytesAt? names with
    | some bytes => .ok bytes
    | none => .error (if t.kindAt? names = some .directory then isDirectory else missing)

/-- What follows the names of a directory. -/
def below? : List String → List String → Option (List String)
  | [], rest => some rest
  | _ :: _, [] => none
  | d :: dir, n :: names => if d = n then below? dir names else none

def filesBelow (t : FileTree) (enters : String → Bool) (p : DiskPath) : List (List String) :=
  match t.resolve? p with
  | none => []
  | some dir => (t.files.filterMap (below? dir ·.1)).filter (·.all enters)

def disk (t : FileTree) : Disk Id where
  kind? := t.entryKind?
  read := t.read
  filesBelow := t.filesBelow

end FileTree

end LuaAnalysis
