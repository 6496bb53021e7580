import LuaAnalysis.Text.Blank

/-!
# What is known about a value

A value kind is the part of a type that the walk tracks. Kinds and type names of annotations are read into each other.
-/

namespace LuaAnalysis

inductive ValueKind where
  | nil | boolean | number | string | table | function
  /-- A value that cannot be looked into, such as userdata. -/
  | foreign
  | unknown
deriving DecidableEq, Repr, Inhabited

namespace ValueKind

def text : ValueKind → String
  | nil => "nil"
  | boolean => "boolean"
  | number => "number"
  | string => "string"
  | table => "table"
  | function => "function"
  | foreign => "opaque"
  | unknown => "unknown"

def typeName? : ValueKind → Option String
  | foreign | unknown => none
  | k => some k.text

/-- The kind of values of a named type, whether the type is optional or not. A name that is not known is a class, and
its values are tables. -/
def ofTypeName (name : String) : ValueKind :=
  let base := Text.dropEndWhile (· == '?') name.toList
  match String.ofList base with
  | "nil" => nil
  | "boolean" => boolean
  | "number" | "integer" => number
  | "string" => string
  | "function" => function
  | "any" | "unknown" => unknown
  | "userdata" | "thread" => foreign
  | _ => if base.contains '|' then unknown else table

/-- The next assignment replaces what is known about a value of this kind. -/
def isReplaceable : ValueKind → Bool
  | nil | unknown => true
  | _ => false

end ValueKind

def isOptionalType (name : String) : Bool :=
  name.toList.getLast? == some '?'

/-- The kind that a declared type gives; an optional type gives none. -/
def ValueKind.ofDeclared (type? : Option String) : ValueKind :=
  match type? with
  | some t => if isOptionalType t then .unknown else .ofTypeName t
  | none => .unknown

end LuaAnalysis
