import LuaAnalysis.OrderedMap
import LuaAnalysis.Text.Blank

/-!
# Settings of a project
-/

namespace LuaAnalysis

/-- Whether a name fits a pattern: `a.*` fits `a` and everything that starts with `a.`, `a*` everything that starts with
`a`, and any other pattern itself only. -/
def matchesWildcard (pattern name : String) : Bool :=
  let name := name.toList
  match Text.dropSuffix? ['.', '*'] pattern.toList with
  | some base => name == base || ((Text.dropPrefix? base name).map (·.head? == some '.')).getD false
  | none =>
    match Text.dropSuffix? ['*'] pattern.toList with
    | some start => (Text.dropPrefix? start name).isSome
    | none => pattern.toList == name

inductive ImportMode where
  /-- A table of the globals that the file defines. -/
  | globals
  /-- The value that the file returns. -/
  | returned
  /-- The value that the file returns, or a table of its globals if it returns none. -/
  | auto
deriving DecidableEq, Repr, Inhabited, Hashable

namespace ImportMode

def text : ImportMode → String
  | globals => "import"
  | returned => "require"
  | auto => "auto"

def ofText? : String → Option ImportMode
  | "import" => some globals
  | "require" => some returned
  | "auto" => some auto
  | _ => none

end ImportMode

structure ImportFunction where
  name : String
  mode : ImportMode := .globals
deriving DecidableEq, Repr, Inhabited

/-- Names that are never reported as undefined. -/
structure GlobalsConfig where
  ignore : List String := []
deriving DecidableEq, Repr, Inhabited

def GlobalsConfig.isIgnored (c : GlobalsConfig) (name : String) : Bool :=
  c.ignore.any (matchesWildcard · name)

structure ImportsConfig where
  separator : String := "."
  extension : String := ".lua"
  ignoreModules : List String := []
  functions : List ImportFunction := []
deriving DecidableEq, Repr, Inhabited

namespace ImportsConfig

def isModuleIgnored (c : ImportsConfig) (module : String) : Bool :=
  c.ignoreModules.any (matchesWildcard · module)

def function? (c : ImportsConfig) (name : String) : Option ImportFunction :=
  c.functions.find? (·.name == name)

end ImportsConfig

structure DiagnosticsConfig where
  disabled : List String := []
  ignoreFiles : List String := []
  ignoreFileKinds : OrderedMap String (List String) := {}
deriving DecidableEq, Repr, Inhabited

structure Config where
  includes : List String := []
  excludes : List String := []
  globals : GlobalsConfig := {}
  imports : ImportsConfig := {}
  diagnostics : DiagnosticsConfig := {}
deriving DecidableEq, Repr, Inhabited

end LuaAnalysis
