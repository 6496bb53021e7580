import LuaAnalysis.Config.Basic
import LuaAnalysis.Text.Utf8
import LuaAnalysis.Toml.Parser

/-!
# Settings from a file

The settings are read from a document in TOML. A section is a table; it may also be an array that holds the values of its
fields in their order, or a date, which holds none of them. A field that is not there has its default, and a field that
nobody knows is named in a notice and left alone.
-/

namespace LuaAnalysis

namespace Config

/-! ## Fields -/

def fileName : String := "luma.toml"

def fieldNames : List String := ["include", "exclude", "globals", "imports", "diagnostics"]

def globalsFieldNames : List String := ["ignore"]

def importsFieldNames : List String := ["separator", "extension", "ignore_modules", "functions"]

def importFunctionFieldNames : List String := ["name", "mode"]

def diagnosticsFieldNames : List String := ["disabled", "ignore_files", "ignore_file_kinds"]

def sections : List (String × List String) :=
  [("globals", globalsFieldNames), ("imports", importsFieldNames), ("diagnostics", diagnosticsFieldNames)]

abbrev Fields := String → Option Toml.Item

def positional (names : List String) (values : List Toml.Item) : Fields := fun name =>
  (names.idxOf? name).bind (values[·]?)

def fields? (names : List String) : Toml.Item → Option Fields
  | .table t | .inline t => some t.get?
  | .array values => some (positional names values)
  | .tables ts => some (positional names (ts.map .table))
  | .dateTime => some fun _ => none
  | .text _ | .scalar => none

/-- A field that has a default; none when its value does not fit. -/
def field? (fields : Fields) (name : String) (default : α) (read? : Toml.Item → Option α) : Option α :=
  match fields name with
  | none => some default
  | some i => read? i

/-! ## Values -/

def text? : Toml.Item → Option String
  | .text value => some value
  | _ => none

def list? (read? : Toml.Item → Option α) : Toml.Item → Option (List α)
  | .array values => values.mapM read?
  | .tables ts => ts.mapM fun t => read? (.table t)
  | _ => none

def texts? : Toml.Item → Option (List String) :=
  list? text?

def isHollow : Toml.Item → Bool
  | .table t | .inline t => t.entries.isEmpty
  | .array values => values.isEmpty
  | _ => false

/-- A mode is given by its name, or by a table with its name as the only key and nothing below it. -/
def importMode? : Toml.Item → Option ImportMode
  | .text name => ImportMode.ofText? name
  | .table t | .inline t =>
    match t.entries with
    | [(name, i)] => if isHollow i then ImportMode.ofText? name else none
    | _ => none
  | _ => none

def importFunction? (i : Toml.Item) : Option ImportFunction := do
  let fields ← fields? importFunctionFieldNames i
  let name ← text? (← fields "name")
  let mode ← field? fields "mode" .globals importMode?
  return { name, mode }

def textsByKey? : Toml.Item → Option (OrderedMap String (List String))
  | .table t | .inline t => do
    return ⟨← t.entries.mapM fun (key, i) => do return (key, ← texts? i)⟩
  | _ => none

/-! ## Sections -/

def globalsSection? (i : Toml.Item) : Option GlobalsConfig := do
  let fields ← fields? globalsFieldNames i
  return { ignore := ← field? fields "ignore" [] texts? }

def importsSection? (i : Toml.Item) : Option ImportsConfig := do
  let fields ← fields? importsFieldNames i
  let default : ImportsConfig := {}
  return {
    separator := ← field? fields "separator" default.separator text?
    extension := ← field? fields "extension" default.extension text?
    ignoreModules := ← field? fields "ignore_modules" [] texts?
    functions := ← field? fields "functions" [] (list? importFunction?) }

def diagnosticsSection? (i : Toml.Item) : Option DiagnosticsConfig := do
  let fields ← fields? diagnosticsFieldNames i
  return {
    disabled := ← field? fields "disabled" [] texts?
    ignoreFiles := ← field? fields "ignore_files" [] texts?
    ignoreFileKinds := ← field? fields "ignore_file_kinds" {} textsByKey? }

/-- The settings in a document; none when a value does not fit. -/
def ofTable? (t : Toml.Table) : Option Config := do
  return {
    includes := ← field? t.get? "include" [] texts?
    excludes := ← field? t.get? "exclude" [] texts?
    globals := ← field? t.get? "globals" {} globalsSection?
    imports := ← field? t.get? "imports" {} importsSection?
    diagnostics := ← field? t.get? "diagnostics" {} diagnosticsSection? }

end Config

/-! ## Notices -/

/-- Something about the file of the settings that its writer should know. -/
inductive ConfigNotice where
  | unknownOption (name : String)
  | unknownSectionOption (sectionName name : String)
  | unreadable (path reason : String)
  /-- No document, or one with values that do not fit. -/
  | invalid (path : String)
deriving DecidableEq, Repr, Inhabited

def ConfigNotice.message : ConfigNotice → String
  | unknownOption name => s!"Unknown config option: '{name}'"
  | unknownSectionOption sectionName name => s!"Unknown config option in [{sectionName}]: '{name}'"
  | unreadable path reason => s!"Failed to read config file '{path}': {reason}"
  | invalid path => s!"Invalid TOML in '{path}'"

namespace Config

def unknownKeys (known : List String) (t : Toml.Table) : List String :=
  ((t.entries.map (·.1)).filter (!known.contains ·)).mergeSort

def sectionNotices (t : Toml.Table) (name : String) (known : List String) : List ConfigNotice :=
  match t.get? name with
  | some (.table inner) | some (.inline inner) =>
    (unknownKeys known inner).map (.unknownSectionOption name)
  | _ => []

def notices (t : Toml.Table) : List ConfigNotice :=
  (unknownKeys fieldNames t).map .unknownOption ++ sections.flatMap fun (name, known) => sectionNotices t name known

/-- Settings, and what there is to say about the file they came from. -/
structure Loaded where
  config : Config := {}
  notices : List ConfigNotice := []
deriving DecidableEq, Repr, Inhabited

def ofText? (text : String) : Option Loaded := do
  let t ← Toml.parse? text
  return { config := ← ofTable? t, notices := notices t }

def notUtf8 : String := "stream did not contain valid UTF-8"

def ofBytes (path : String) (bytes : List UInt8) : Except ConfigNotice Loaded :=
  match Utf8.decode? bytes with
  | none => .error (.unreadable path notUtf8)
  | some text =>
    match ofText? text with
    | some loaded => .ok loaded
    | none => .error (.invalid path)

def Loaded.orDefault : Except ConfigNotice Loaded → Loaded
  | .ok loaded => loaded
  | .error notice => { notices := [notice] }

end Config

end LuaAnalysis
