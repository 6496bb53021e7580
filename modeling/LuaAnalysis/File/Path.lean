import LuaAnalysis.Text.Blank

/-!
# Paths of project files

A path is written with slashes and without a leading `./`. Two spellings of one path have the same normal form.
-/

namespace LuaAnalysis.Path

/-- The path without leading `./`, however often it stands there. -/
def dropCurrentDir : List Char → List Char
  | '.' :: '/' :: cs => dropCurrentDir cs
  | cs => cs

def slashed (cs : List Char) : List Char :=
  cs.map fun c => if c = '\\' then '/' else c

def normalize (path : String) : String :=
  String.ofList (dropCurrentDir (slashed path.toList))

def components (path : String) : List String :=
  (Text.splitOn (· == '/') path.toList).map String.ofList

def properComponents (path : String) : List String :=
  (components path).filter fun c => c ≠ "" && c ≠ "."

end LuaAnalysis.Path
