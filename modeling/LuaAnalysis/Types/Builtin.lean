import LuaAnalysis.Types.ValueKind

/-!
# Names that Lua itself provides
-/

namespace LuaAnalysis.Builtin

/-- Library tables, and the table of globals. -/
def modules : List String :=
  ["coroutine", "debug", "io", "math", "os", "package", "string", "table", "utf8", "bit32", "_G"]

def names : List String :=
  ["_G", "_ENV", "_VERSION", "assert", "collectgarbage", "dofile", "error", "getmetatable", "ipairs", "load",
    "loadfile", "loadstring", "next", "pairs", "pcall", "print", "rawequal", "rawget", "rawlen", "rawset", "require",
    "select", "setmetatable", "tonumber", "tostring", "type", "unpack", "warn", "xpcall", "coroutine", "debug", "io",
    "math", "os", "package", "string", "table", "utf8", "bit32"]

def isName (name : String) : Bool :=
  names.contains name

/-- Modules that can be required without a file. -/
def isModule (name : String) : Bool :=
  modules.contains name

def kind (name : String) : ValueKind :=
  if name == "_VERSION" then .string
  else if name == "_ENV" || isModule name then .table
  else .function

end LuaAnalysis.Builtin
