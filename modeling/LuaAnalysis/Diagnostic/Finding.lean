import LuaAnalysis.Diagnostic.Kind
import LuaAnalysis.Text.Position

/-!
# Findings and diagnostics

A finding is about one file and does not name it. A diagnostic is a finding of a file, and its related places may lie in
other files.
-/

namespace LuaAnalysis

/-- A place in the same file that explains a finding. -/
structure Note where
  message : String
  range : TextRange
deriving DecidableEq, Repr, Inhabited

/-- Something to report about a stretch of a file. -/
structure Finding where
  kind : Kind
  message : String
  range : TextRange
  related : List Note := []
deriving DecidableEq, Repr, Inhabited

/-- A place in some file that explains a diagnostic. -/
structure RelatedPlace where
  file : String
  message : String
  range : TextRange
deriving DecidableEq, Repr, Inhabited

/-- A finding together with the file that it is about. -/
structure Diagnostic where
  kind : Kind
  message : String
  file : String
  range : TextRange
  related : List RelatedPlace := []
deriving DecidableEq, Repr, Inhabited

namespace Diagnostic

def code (d : Diagnostic) : String :=
  d.kind.code

def severity (d : Diagnostic) : Severity :=
  d.kind.severity

def line (d : Diagnostic) : Nat :=
  d.range.start.line + 1

def column (d : Diagnostic) : Nat :=
  d.range.start.column + 1

end Diagnostic

def Finding.toDiagnostic (file : String) (f : Finding) : Diagnostic :=
  { kind := f.kind
    message := f.message
    file
    range := f.range
    related := f.related.map fun n => ⟨file, n.message, n.range⟩ }

end LuaAnalysis
