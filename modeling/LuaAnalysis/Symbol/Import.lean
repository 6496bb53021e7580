import LuaAnalysis.Symbol.Store

/-!
# Copies between stores

A variable of another store is copied together with everything that its members reach. What has been copied from a file
before is not copied again, so that shared and cyclic members stay shared and cyclic. The variables to copy are first
listed in the order in which they are reached, then each gets its copy, and at last the copies are linked.
-/

namespace LuaAnalysis.Store

/-- The variables of `pending` that are reached from `todo` through members, each once, in the order in which a
depth-first search meets them. -/
def reached (source : Store) (pending todo : List VariableId) : List VariableId :=
  match todo with
  | [] => []
  | v :: todo =>
    if v ∈ pending then
      v :: reached source (pending.erase v) ((source.variableAt v).members.values ++ todo)
    else reached source pending todo
termination_by (pending.length, todo.length)
decreasing_by
  · have := List.length_erase_of_mem ‹v ∈ pending›
    have := List.length_pos_of_mem ‹v ∈ pending›
    exact Prod.Lex.left _ _ (by omega)
  · exact Prod.Lex.right _ (by simp)

/-- The variables of `source` that have not been copied yet. -/
def pendingImports (s source : Store) (origin : FileId) : List VariableId :=
  ((List.range source.vars.size).map VariableId.mk).filter fun v =>
    !s.importedVariables.contains (origin, v)

/-- The copy of a function, made when it is first asked for. -/
def importFunction (s source : Store) (origin : FileId) (id : FunctionId) : Store × FunctionId :=
  match s.importedFunctions.get? (origin, id) with
  | some copy => (s, copy)
  | none =>
    let f := source.functionAt id
    let (s, copy) := s.addFunction
      { file := f.file, name := f.name, params := f.params, isVararg := f.isVararg, hasColon := f.hasColon
        range := f.range }
    let s := s.modifyFunction copy fun x => { x with types := f.types }
    ({ s with importedFunctions := s.importedFunctions.insert (origin, id) copy }, copy)

def importFunction? (s source : Store) (origin : FileId) : Option FunctionId → Store × Option FunctionId
  | some f =>
    let (s, copy) := s.importFunction source origin f
    (s, some copy)
  | none => (s, none)

def importReference? (s source : Store) : Option ReferenceId → Store × Option ReferenceId
  | some r =>
    let (s, copy) := s.addReference (source.referenceAt r)
    (s, some copy)
  | none => (s, none)

/-- Copies one variable without its members. -/
def importBare (s source : Store) (origin : FileId) (id : VariableId) : Store :=
  let v := source.variableAt id
  let (s, function) := s.importFunction? source origin v.function
  let (s, reference) := s.importReference? source v.reference
  let (s, copy) := s.addVariable
    { v with
      scope := none
      owner := none
      function
      reference
      members := {}
      flags.used := false
      assignSites := [] }
  { s with importedVariables := s.importedVariables.insert (origin, id) copy }

def importedCopy (s : Store) (origin : FileId) (id : VariableId) : VariableId :=
  (s.importedVariables.get? (origin, id)).getD default

def linkMembers (s source : Store) (origin : FileId) (id : VariableId) : Store :=
  let members := (source.variableAt id).members.mapValues (s.importedCopy origin)
  s.modifyVariable (s.importedCopy origin id) fun v => { v with members }

def importVariable (s source : Store) (origin : FileId) (id : VariableId) : Store × VariableId :=
  match s.importedVariables.get? (origin, id) with
  | some copy => (s, copy)
  | none =>
    let order := reached source (s.pendingImports source origin) [id]
    let s := order.foldl (fun s v => s.importBare source origin v) s
    let s := order.foldl (fun s v => s.linkMembers source origin v) s
    (s, s.importedCopy origin id)

def importAll (s source : Store) (origin : FileId) :
    List (String × VariableId) → Store × List (String × VariableId)
  | [] => (s, [])
  | (name, v) :: rest =>
    let (s, copy) := s.importVariable source origin v
    let (s, rest) := s.importAll source origin rest
    (s, (name, copy) :: rest)

end LuaAnalysis.Store
