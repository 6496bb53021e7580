import LuaAnalysis.File.Path
import LuaAnalysis.OrderedMap
import LuaAnalysis.Source.Basic

/-!
# The files of a project

Files are numbered in order of first registration. A file that is registered again keeps its number and its place. A map
leads from paths to numbers; that it fits the files is part of the type.
-/

namespace LuaAnalysis

/-- A file, by its number in order of registration. -/
structure FileId where
  index : Nat
deriving DecidableEq, Repr, Inhabited, Hashable

/-- A registered file with what was read from its text. -/
structure SourceFile where
  id : FileId
  path : String
  source : Source
deriving Inhabited

def SourceFile.ofText (id : FileId) (path text : String) : SourceFile :=
  { id, path, source := .parse text }

/-- The files in order of registration, and the number that a path has. -/
structure FileIndex where
  files : Array SourceFile
  byPath : OrderedMap String FileId
  /-- A file stands at the place of its number. -/
  placed : ∀ (i : Nat) (file : SourceFile), files[i]? = some file → file.id = ⟨i⟩
  /-- A path leads to a file that has it. -/
  located : ∀ (path : String) (id : FileId), byPath.get? path = some id →
    ∃ file, files[id.index]? = some file ∧ file.path = path

namespace FileIndex

def empty : FileIndex where
  files := #[]
  byPath := {}
  placed := by simp
  located := by simp [OrderedMap.get?, OrderedMap.find?]

instance : Inhabited FileIndex :=
  ⟨.empty⟩

def size (x : FileIndex) : Nat :=
  x.files.size

def ids (x : FileIndex) : List FileId :=
  x.files.toList.map (·.id)

theorem ids_eq (x : FileIndex) : x.ids = (List.range x.size).map FileId.mk := by
  refine List.ext_getElem (by simp [ids, size]) fun i h _ => ?_
  have hlt : i < x.files.size := by simpa [ids] using h
  simpa [ids] using x.placed i x.files[i] (Array.getElem?_eq_getElem hlt)

def get? (x : FileIndex) (id : FileId) : Option SourceFile :=
  x.files[id.index]?

theorem get?_id (x : FileIndex) {file : SourceFile} (h : file ∈ x.files) : x.get? file.id = some file := by
  obtain ⟨i, hi⟩ := Array.getElem?_of_mem h
  rw [x.placed i file hi]
  exact hi

/-- The path of a file; a number that is not registered has the empty path. -/
def path (x : FileIndex) (id : FileId) : String :=
  ((x.get? id).map (·.path)).getD ""

def idOf? (x : FileIndex) (path : String) : Option FileId :=
  x.byPath.get? (Path.normalize path)

/-- Gives a file another text; its number and its path stay. -/
def replace (x : FileIndex) (id : FileId) (source : Source) : FileIndex where
  files := x.files.modify id.index ({ · with source })
  byPath := x.byPath
  placed i file h := by
    rw [Array.getElem?_modify] at h
    split at h
    · obtain ⟨old, hold, rfl⟩ := Option.map_eq_some_iff.1 h
      exact x.placed i old hold
    · exact x.placed i file h
  located path id' h := by
    obtain ⟨file, hfile, hpath⟩ := x.located path id' h
    rw [Array.getElem?_modify, hfile]
    split
    · exact ⟨_, rfl, hpath⟩
    · exact ⟨file, rfl, hpath⟩

/-- Puts a new file at the end and its path into the map. -/
def register (x : FileIndex) (path : String) (source : Source) : FileIndex where
  files := x.files.push { id := ⟨x.size⟩, path, source }
  byPath := x.byPath.insert path ⟨x.size⟩
  placed i file h := by
    rw [Array.getElem?_push] at h
    split at h
    · next hi =>
      cases h
      rw [hi, size]
    · exact x.placed i file h
  located path' id h := by
    rw [OrderedMap.get?_insert] at h
    split at h
    · next hpath =>
      cases h
      exact ⟨_, Array.getElem?_push_size, hpath⟩
    · obtain ⟨file, hfile, hpath⟩ := x.located path' id h
      have hlt := (Array.getElem?_eq_some_iff.1 hfile).1
      exact ⟨file, by rw [Array.getElem?_push, if_neg (Nat.ne_of_lt hlt), hfile], hpath⟩

def insert (x : FileIndex) (path text : String) : FileIndex × FileId :=
  let path := Path.normalize path
  let source := Source.parse text
  match x.byPath.get? path with
  | some id => (x.replace id source, id)
  | none => (x.register path source, ⟨x.size⟩)

/-- The first file whose path ends with the proper components of `candidate`. -/
def findBySuffix? (x : FileIndex) (candidate : String) : Option FileId :=
  let wanted := Path.properComponents candidate
  if wanted.isEmpty then none
  else (x.files.find? fun f => wanted.isSuffixOf (Path.components f.path)).map (·.id)

end FileIndex

end LuaAnalysis
