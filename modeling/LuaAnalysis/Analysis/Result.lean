import LuaAnalysis.Diagnostic.Finding
import LuaAnalysis.Symbol.Import

/-!
# Results of walks
-/

namespace LuaAnalysis

/-- What a walk found out about one file. The numbers are those of the store of the walk. -/
structure FileResult where
  file : FileId
  path : String
  globals : OrderedMap String VariableId := {}
  /-- The globals that the file defines as members of `_G`. -/
  rootGlobals : OrderedMap String VariableId := {}
  /-- Names that were read without any definition in sight, with the places. -/
  undefined : OrderedMap String (List TextRange) := {}
  diagnostics : List Diagnostic := []
  references : List ReferenceId := []
  mainFunction : Option FunctionId := none
  /-- The last value returned at top level that is not known to be nil. -/
  returnValue : Option VariableId := none
deriving DecidableEq, Repr, Inhabited

/-- The result of walking one file alone, with the store that holds its symbols. -/
structure FileAnalysis where
  store : Store
  result : FileResult
deriving DecidableEq, Repr, Inhabited

def FileAnalysis.global? (a : FileAnalysis) (name : String) : Option VariableId :=
  a.result.globals.get? name

structure FirstPass where
  analyses : List FileAnalysis := []
deriving DecidableEq, Repr, Inhabited

namespace FirstPass

def get? (p : FirstPass) (file : FileId) : Option FileAnalysis :=
  p.analyses.find? (·.result.file == file)

def rootGlobal? (p : FirstPass) (name : String) : Option (FileAnalysis × VariableId) :=
  p.analyses.findSome? fun a => (a.result.rootGlobals.get? name).map (a, ·)

def global? (p : FirstPass) (name : String) : Option (FileAnalysis × VariableId) :=
  p.analyses.findSome? fun a => (a.global? name).map (a, ·)

def globalIn? (p : FirstPass) (files : List FileId) (name : String) : Option (FileAnalysis × VariableId) :=
  files.findSome? fun f => (p.get? f).bind fun a => (a.global? name).map (a, ·)

end FirstPass

/-- What the files of a walk from entry files have in common. -/
structure ProjectTables where
  globals : OrderedMap String VariableId := {}
  rootGlobals : OrderedMap String VariableId := {}
  files : OrderedMap FileId FileResult := {}
deriving DecidableEq, Repr, Inhabited

namespace ProjectTables

/-- The first definition of a global stays. -/
def defineGlobal (t : ProjectTables) (name : String) (v : VariableId) : ProjectTables :=
  { t with globals := t.globals.insertIfNew name v }

def defineRootGlobal (t : ProjectTables) (name : String) (v : VariableId) : ProjectTables :=
  { t with rootGlobals := t.rootGlobals.insertIfNew name v }.defineGlobal name v

def isWalked (t : ProjectTables) (file : FileId) : Bool :=
  t.files.contains file

end ProjectTables

end LuaAnalysis
