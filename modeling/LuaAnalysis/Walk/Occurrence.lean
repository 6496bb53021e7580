import LuaAnalysis.Symbol.Basic

/-!
# Names met on a walk
-/

namespace LuaAnalysis

/-- What a name stands for, as a reader of the file sees it. -/
inductive SymbolClass where
  | localVariable | parameter | loopVariable | upvalue | globalVariable | globalFunction | localFunction
  | builtin | unresolved
deriving DecidableEq, Repr, Inhabited

namespace SymbolClass

def text : SymbolClass → String
  | localVariable => "local"
  | parameter => "parameter"
  | loopVariable => "loop-variable"
  | upvalue => "upvalue"
  | globalVariable => "global"
  | globalFunction => "global-function"
  | localFunction => "local-function"
  | builtin => "builtin"
  | unresolved => "unresolved"

/-- Whether all uses of the name lie in one file. -/
def isLocal : SymbolClass → Bool
  | localVariable | parameter | loopVariable | upvalue | localFunction => true
  | globalVariable | globalFunction | builtin | unresolved => false

end SymbolClass

structure DeclKey where
  file : FileId
  range : TextRange
deriving DecidableEq, Repr, Inhabited

inductive NameRole where
  | declaration | read | write
deriving DecidableEq, Repr, Inhabited

/-- A name at a place in a file, with the declaration that it is bound to. -/
structure Occurrence where
  name : String
  file : FileId
  range : TextRange
  role : NameRole
  declaration : Option DeclKey
  symbolClass : SymbolClass
deriving DecidableEq, Repr, Inhabited

end LuaAnalysis
