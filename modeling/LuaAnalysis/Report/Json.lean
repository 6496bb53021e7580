import LuaAnalysis.Diagnostic.Finding

/-!
# Reports for programs

A report is one JSON object, written over several lines with two blanks of indentation for each level.
-/

namespace LuaAnalysis

/-- A JSON value. The fields of an object are written in their order. -/
inductive JsonValue where
  | number (n : Nat)
  | text (s : String)
  | array (values : List JsonValue)
  | object (fields : List (String × JsonValue))
deriving Repr, Inhabited

namespace JsonValue

/-! ## Text -/

/-- A character between double quotes. Quotes, backslashes and control characters are escaped. -/
def escape (c : Char) : List Char :=
  match c with
  | '"' => ['\\', '"']
  | '\\' => ['\\', '\\']
  | '\n' => ['\\', 'n']
  | '\r' => ['\\', 'r']
  | '\t' => ['\\', 't']
  | '\x08' => ['\\', 'b']
  | '\x0c' => ['\\', 'f']
  | c =>
    if c.toNat < 0x20 then
      ['\\', 'u', '0', '0', Nat.digitChar (c.toNat / 16), Nat.digitChar (c.toNat % 16)]
    else [c]

def quote (s : String) : String :=
  String.ofList ('"' :: s.toList.flatMap escape ++ ['"'])

def newLine (level : Nat) : String :=
  "\n" ++ String.ofList (List.replicate (2 * level) ' ')

mutual

def render (level : Nat) : JsonValue → String
  | number n => toString n
  | text s => quote s
  | array [] => "[]"
  | array (v :: vs) =>
    "[" ++ newLine (level + 1) ++ render (level + 1) v ++ renderValues (level + 1) vs ++ newLine level ++ "]"
  | object [] => "\x7b\x7d"
  | object ((k, v) :: fs) =>
    "\x7b" ++ newLine (level + 1) ++ quote k ++ ": " ++ render (level + 1) v ++ renderFields (level + 1) fs
      ++ newLine level ++ "\x7d"

def renderValues (level : Nat) : List JsonValue → String
  | [] => ""
  | v :: vs => "," ++ newLine level ++ render level v ++ renderValues level vs

def renderFields (level : Nat) : List (String × JsonValue) → String
  | [] => ""
  | (k, v) :: fs => "," ++ newLine level ++ quote k ++ ": " ++ render level v ++ renderFields level fs

end

/-! ## Diagnostics -/

def ofPosition (p : Position) : JsonValue :=
  object [("line", number p.line), ("column", number p.column)]

def ofRange (r : TextRange) : JsonValue :=
  object [("start", ofPosition r.start), ("end", ofPosition r.stop)]

def ofRelated (r : RelatedPlace) : JsonValue :=
  object [("file", text r.file), ("message", text r.message), ("range", ofRange r.range)]

/-- Related places are left out if there are none. -/
def ofDiagnostic (d : Diagnostic) : JsonValue :=
  object ([("kind", text d.kind.name), ("code", text d.code), ("severity", text d.severity.text),
    ("message", text d.message), ("file", text d.file), ("range", ofRange d.range)] ++
    if d.related.isEmpty then [] else [("related", array (d.related.map ofRelated))])

end JsonValue

namespace Report

def formatVersion : String := "1.0"

def programVersion : String := "0.1.0"

def countOf (s : Severity) (ds : List Diagnostic) : Nat :=
  ds.countP (·.severity == s)

def json (root : String) (files : Nat) (ds : List Diagnostic) : JsonValue :=
  .object [
    ("version", .text formatVersion),
    ("metadata", .object [("luma_version", .text programVersion), ("analyzed_path", .text root)]),
    ("summary", .object [
      ("total_files", .number files),
      ("files_with_issues", .number (ds.map (·.file)).eraseDups.length),
      ("total_diagnostics", .number ds.length),
      ("by_severity", .object ([.error, .warning, .info, .hint].map fun s => (s.text, .number (countOf s ds))))]),
    ("diagnostics", .array (ds.map .ofDiagnostic))]

end Report

end LuaAnalysis
