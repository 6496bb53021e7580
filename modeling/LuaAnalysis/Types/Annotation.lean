import LuaAnalysis.OrderedMap
import LuaAnalysis.Source.CommentTable

/-!
# Types declared in comments

The comment block right above a statement may carry tags: `@param`, `@return`, `@type`, `@const` and `@enum`. They are
looked up by the line of the statement.
-/

namespace LuaAnalysis

structure FunctionTypes where
  params : OrderedMap String String := {}
  returns : List String := []
deriving DecidableEq, Repr, Inhabited

def FunctionTypes.isEmpty (t : FunctionTypes) : Bool :=
  t.params.isEmpty && t.returns.isEmpty

structure Annotation where
  function : FunctionTypes := {}
  declared : Option String := none
  constant : Bool := false
  isEnum : Bool := false
deriving DecidableEq, Repr, Inhabited

namespace Annotation

def tag? (line : List Char) : Option (List Char × List Char) :=
  match Text.trim (line.dropWhile (· == '-')) with
  | '@' :: body =>
    some (body.takeWhile (!Text.isBlank ·), (body.dropWhile (!Text.isBlank ·)).drop 1)
  | _ => none

def firstWord? (cs : List Char) : Option String :=
  (Text.words cs).head?.map String.ofList

/-- A parameter and its type; a question mark after the name belongs to the type. -/
def param? (rest : List Char) : Option (String × String) :=
  match Text.words rest with
  | name :: type :: _ =>
    match Text.dropSuffix? ['?'] name with
    | some base => some (String.ofList base, String.ofList (type ++ ['?']))
    | none => some (String.ofList name, String.ofList type)
  | _ => none

/-- The types of a `@return` tag: the first word between commas. -/
def returns (rest : List Char) : List String :=
  (Text.splitOn (· == ',') rest).filterMap firstWord?

/-- What is known after one more comment line. -/
def addLine (a : Annotation) (line : String) : Annotation :=
  match tag? line.toList with
  | none => a
  | some (tag, rest) =>
    match String.ofList tag with
    | "param" =>
      match param? rest with
      | some (name, type) => { a with function.params := a.function.params.insert name type }
      | none => a
    | "return" => { a with function.returns := a.function.returns ++ returns rest }
    | "type" => { a with declared := firstWord? rest }
    | "const" => { a with constant := true }
    | "enum" => { a with isEnum := true }
    | _ => a

def ofLines (lines : List String) : Annotation :=
  lines.foldl addLine {}

end Annotation

structure Annotations where
  byLine : OrderedMap Nat Annotation := {}
deriving DecidableEq, Repr, Inhabited

namespace Annotations

/-- Takes over the tags of a block that stands alone, if it has any. -/
def addBlock (as : Annotations) (b : CommentBlock) : Annotations :=
  let a := Annotation.ofLines b.lines
  if b.head && a ≠ {} then ⟨as.byLine.insert (b.range.stop.line + 1) a⟩ else as

def ofComments (t : CommentTable) : Annotations :=
  t.blocks.foldl addBlock {}

def at? (as : Annotations) (line : Nat) : Option Annotation :=
  as.byLine.get? line

def functionTypes? (as : Annotations) (line : Nat) : Option FunctionTypes :=
  ((as.at? line).map (·.function)).filter (!·.isEmpty)

def declaredType? (as : Annotations) (line : Nat) : Option String :=
  (as.at? line).bind (·.declared)

def isConstant (as : Annotations) (line : Nat) : Bool :=
  ((as.at? line).map (·.constant)).getD false

def isEnum (as : Annotations) (line : Nat) : Bool :=
  ((as.at? line).map (·.isEnum)).getD false

end Annotations

/-- The annotations of all files, by path. -/
structure AnnotationTable where
  files : OrderedMap String Annotations := {}
deriving DecidableEq, Repr, Inhabited

namespace AnnotationTable

/-- Puts what the comments of a file say in the place of what was known about it. -/
def insertFile (t : AnnotationTable) (path : String) (comments : CommentTable) : AnnotationTable :=
  ⟨t.files.insert path (.ofComments comments)⟩

/-- A file that has not been put in has no annotations. -/
def ofFile (t : AnnotationTable) (path : String) : Annotations :=
  (t.files.get? path).getD {}

end AnnotationTable

end LuaAnalysis
