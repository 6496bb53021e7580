import LuaAnalysis.Report.Json
import LuaAnalysis.Text.Lines

/-!
# Reports for people

Every diagnostic is shown with its place and, if the file can be read, the line with a mark under the range. Colours are
written as escape sequences, or not at all.
-/

namespace LuaAnalysis

inductive Ink where
  | bold | dimmed | red | green | yellow | blue | cyan
deriving DecidableEq, Repr, Inhabited

namespace Ink

def code : Ink → String
  | bold => "1"
  | dimmed => "2"
  | red => "31"
  | green => "32"
  | yellow => "33"
  | blue => "34"
  | cyan => "36"

/-- The text in some inks; without colours, the text itself. -/
def paint (colored : Bool) (inks : List Ink) (text : String) : String :=
  if colored then "\x1b[" ++ ";".intercalate (inks.map code) ++ "m" ++ text ++ "\x1b[0m" else text

def ofSeverity : Severity → Ink
  | .error => red
  | .warning => yellow
  | .info => blue
  | .hint => cyan

end Ink

namespace Report

/-- The number with its noun, which takes an `s` unless there is one. -/
def counted (n : Nat) (noun : String) : String :=
  if n = 1 then s!"{n} {noun}" else s!"{n} {noun}s"

def spaces (n : Nat) : String :=
  String.ofList (List.replicate n ' ')

/-- How many marks stand under a range: its width, or one mark if it is empty or ends on another line. -/
def markCount (r : TextRange) : Nat :=
  if r.stop.line = r.start.line && r.start.column < r.stop.column then r.stop.column - r.start.column else 1

def excerpt (colored : Bool) (d : Diagnostic) (sourceLine : String) : List String :=
  let bar := Ink.paint colored [.blue] "|"
  let margin := spaces (toString d.line).length
  let number := Ink.paint colored [.blue] (toString d.line)
  let marks := Ink.paint colored [.red] (String.ofList (List.replicate (markCount d.range) '^'))
  let offset := spaces d.range.start.column
  [s!"{margin} {bar}", s!"{number} {bar} {sourceLine}", s!"{margin} {bar} {offset}{marks}"]

def related (colored : Bool) (margin : String) (r : RelatedPlace) : String :=
  let sign := Ink.paint colored [.blue] "="
  let label := Ink.paint colored [.green] "note:"
  s!"{margin} {sign} {label} {r.file}:{r.range.start.line + 1}:{r.range.start.column + 1}: {r.message}"

/-- The lines for a diagnostic; `source?` gives the text of a file. -/
def diagnosticLines (colored : Bool) (source? : String → Option String) (d : Diagnostic) : List String :=
  let severity := Ink.paint colored [.bold, .ofSeverity d.severity] d.severity.text
  let kind := Ink.paint colored [.dimmed] d.kind.name
  let arrow := Ink.paint colored [.blue] "-->"
  let sourceLine? := (source? d.file).bind fun text => (Text.linesOf text)[d.range.start.line]?
  [s!"{severity}[{kind}]: {d.message}", s!"  {arrow} {d.file}:{d.line}:{d.column}"]
    ++ (sourceLine?.map (excerpt colored d)).getD []
    ++ d.related.map (related colored (spaces (toString d.line).length))

def summary (colored : Bool) (ds : List Diagnostic) : String :=
  let total := Ink.paint colored [.bold] (toString ds.length)
  let noun := if ds.length = 1 then "problem" else "problems"
  let errors := Ink.paint colored [.red] (counted (countOf .error ds) "error")
  let warnings := Ink.paint colored [.yellow] (counted (countOf .warning ds) "warning")
  s!"\nFound {total} {noun} ({errors}, {warnings})\n"

def terminal (colored : Bool) (source? : String → Option String) (ds : List Diagnostic) : String :=
  String.join (ds.map fun d => "\n".intercalate (diagnosticLines colored source? d) ++ "\n")
    ++ if ds.isEmpty then "" else summary colored ds

end Report

end LuaAnalysis
