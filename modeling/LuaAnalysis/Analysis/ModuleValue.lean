import LuaAnalysis.Analysis.Result

/-!
# The value of a load

Depending on the load, a file stands for the value that it returns, for a table of its globals, or for a function.
-/

namespace LuaAnalysis

inductive ModuleShape where
  | returned (v : VariableId)
  | globals
  | function
deriving DecidableEq, Repr, Inhabited

namespace ModuleShape

/-- The shape of a load of a file whose symbols are in `store`; none when the file gives no value. -/
def of? (store : Store) (load : LoadKind) (result : FileResult) : Option ModuleShape :=
  let value? := result.returnValue.filter fun v => (store.variableAt v).kind ≠ .nil
  match load with
  | .loadfile => some function
  | .require | .dofile | .configured .returned => value?.map returned
  | .configured .globals => some globals
  | .configured .auto => some ((value?.map returned).getD globals)

end ModuleShape

def FileResult.moduleVariable (r : FileResult) (kind : ValueKind) (members : OrderedMap String VariableId) : Variable :=
  { name := r.path, file := r.file, kind, range := {}, flags := { module := true }, members }

namespace Store

def bindModule (s : Store) (load : LoadKind) (result : FileResult) : Store × Option VariableId :=
  match ModuleShape.of? s load result with
  | none => (s, none)
  | some (.returned v) => (s, some v)
  | some .function =>
    let (s, v) := s.addVariable (result.moduleVariable .function {})
    (s, some v)
  | some .globals =>
    let (s, v) := s.addVariable (result.moduleVariable .table result.globals)
    (s, some v)

def importModule (s : Store) (load : LoadKind) (a : FileAnalysis) : Store × Option VariableId :=
  match ModuleShape.of? a.store load a.result with
  | none => (s, none)
  | some (.returned v) =>
    let (s, v) := s.importVariable a.store a.result.file v
    (s, some v)
  | some .function =>
    let (s, v) := s.addVariable (a.result.moduleVariable .function {})
    (s, some v)
  | some .globals =>
    let (s, members) := s.importAll a.store a.result.file a.result.globals.entries
    let (s, v) := s.addVariable (a.result.moduleVariable .table ⟨members⟩)
    (s, some v)

end Store

end LuaAnalysis
