import LuaAnalysis.Config.Basic
import LuaAnalysis.File.Index
import LuaAnalysis.Text.Replace
import LuaAnalysis.Types.Builtin

/-!
# Loads and the files they reach

A load names a module or a file. It stands for the first registered file whose path ends with one of the candidate
paths.
-/

namespace LuaAnalysis

inductive LoadKind where
  | require
  | dofile
  | loadfile
  | configured (mode : ImportMode)
deriving DecidableEq, Repr, Inhabited, Hashable

namespace LoadKind

def takesModuleName : LoadKind → Bool
  | require | configured _ => true
  | dofile | loadfile => false

def ofFunction? (imports : ImportsConfig) (name : String) : Option LoadKind :=
  match imports.function? name with
  | some f => some (configured f.mode)
  | none =>
    match name with
    | "require" => some require
    | "dofile" => some dofile
    | "loadfile" => some loadfile
    | _ => none

end LoadKind

namespace Load

def modulePath (imports : ImportsConfig) (module : String) : String :=
  Path.normalize (String.ofList (Text.replaceAll imports.separator.toList ['/'] module.toList))

/-- The paths that a load may mean, the most specific first. -/
def candidates (imports : ImportsConfig) (load : LoadKind) (module : String) : List String :=
  if load.takesModuleName then
    let base := modulePath imports module
    let extension := imports.extension
    if extension ≠ "" && (Text.dropSuffix? extension.toList base.toList).isSome then [base]
    else [base ++ extension, base ++ "/init" ++ extension]
  else [Path.normalize module]

def target? (files : FileIndex) (imports : ImportsConfig) (load : LoadKind) (module : String) : Option FileId :=
  (candidates imports load module).findSome? files.findBySuffix?

/-- Whether a module rightly has no file in the project. -/
def isExternal (imports : ImportsConfig) (module : String) : Bool :=
  Builtin.isModule module || imports.isModuleIgnored module

end Load

end LuaAnalysis
