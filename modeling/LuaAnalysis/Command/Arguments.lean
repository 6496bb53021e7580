import LuaAnalysis.Disk.Path

/-!
# Arguments of the command

Options may stand among the paths, and after `--` everything is a path. An option that takes a value has it after an equals
sign or as the next argument, which then may not look like an option. Only `--entry` may be given more than once.
-/

namespace LuaAnalysis

inductive OutputFormat where
  | pretty | json
deriving DecidableEq, Repr, Inhabited

def OutputFormat.ofText? : String → Option OutputFormat
  | "pretty" => some pretty
  | "json" => some json
  | _ => none

inductive CommandOption where
  | entry | format | realtime | failOnWarnings | noColor | logLevel | logFile | logJson | help
deriving DecidableEq, Repr, Inhabited

namespace CommandOption

def all : List CommandOption :=
  [entry, format, realtime, failOnWarnings, noColor, logLevel, logFile, logJson, help]

/-- The name after two dashes. -/
def long : CommandOption → String
  | entry => "entry"
  | format => "format"
  | realtime => "realtime"
  | failOnWarnings => "fail-on-warnings"
  | noColor => "no-color"
  | logLevel => "log-level"
  | logFile => "log-file"
  | logJson => "log-json"
  | help => "help"

def ofLong? (name : List Char) : Option CommandOption :=
  all.find? (·.long.toList == name)

def ofShort? : Char → Option CommandOption
  | 'f' => some format
  | 'h' => some help
  | _ => none

def takesValue : CommandOption → Bool
  | entry | format | logLevel | logFile => true
  | realtime | failOnWarnings | noColor | logJson | help => false

end CommandOption

def logLevels : List String := ["trace", "debug", "info", "warn", "error"]

structure CheckArguments where
  paths : List String := []
  /-- The entry files; without any, every file is one. -/
  entries : List String := []
  format : OutputFormat := .pretty
  realtime : Bool := false
  failOnWarnings : Bool := false
  noColor : Bool := false
deriving DecidableEq, Repr, Inhabited

inductive ArgumentFault where
  | unknown (argument : String)
  | repeated (o : CommandOption)
  | missingValue (o : CommandOption)
  | unexpectedValue (o : CommandOption) (value : String)
  | invalidValue (o : CommandOption) (value : String)
  | emptyPath
deriving DecidableEq, Repr, Inhabited

def ArgumentFault.message : ArgumentFault → String
  | unknown argument => s!"unexpected argument '{argument}' found"
  | repeated o => s!"the argument '--{o.long}' cannot be used multiple times"
  | missingValue o => s!"a value is required for '--{o.long}' but none was supplied"
  | unexpectedValue o value => s!"unexpected value '{value}' for '--{o.long}' found; no more were expected"
  | invalidValue o value => s!"invalid value '{value}' for '--{o.long}'"
  | emptyPath => "a value is required for '[PATH]...' but none was supplied"

namespace CheckArguments

/-! ## Single arguments -/

inductive Form where
  | path (text : String)
  | onlyPaths
  | option (o : CommandOption) (value : Option String)
  | unknown
deriving DecidableEq, Repr, Inhabited

/-- The value after an equals sign, and the name before it. -/
def splitValue (cs : List Char) : List Char × Option String :=
  match Text.splitOnce? ['='] cs with
  | some (name, value) => (name, some (String.ofList value))
  | none => (cs, none)

/-- A value that stands right after the letter of an option; an equals sign between them is dropped. -/
def attached : List Char → Option String
  | [] => none
  | '=' :: cs => some (String.ofList cs)
  | cs => some (String.ofList cs)

def formOf (argument : String) : Form :=
  match argument.toList with
  | ['-', '-'] => .onlyPaths
  | '-' :: '-' :: cs =>
    let (name, value) := splitValue cs
    ((CommandOption.ofLong? name).map (.option · value)).getD .unknown
  | '-' :: c :: cs =>
    match CommandOption.ofShort? c with
    | some o => .option o (if o.takesValue then attached cs else none)
    | none => .unknown
  | _ => .path argument

def looksLikeOption (argument : String) : Bool :=
  match argument.toList with
  | '-' :: _ :: _ => true
  | _ => false

/-! ## Lists of arguments -/

structure Progress where
  arguments : CheckArguments := {}
  given : List CommandOption := []
deriving DecidableEq, Repr, Inhabited

def addPath (s : Progress) (path : String) : Except ArgumentFault Progress :=
  if path.isEmpty then .error .emptyPath
  else .ok { s with arguments.paths := s.arguments.paths ++ [path] }

/-- Notes that an option is given, which only some may be more than once. -/
def give (s : Progress) (o : CommandOption) : Except ArgumentFault Progress :=
  if o ≠ .entry && s.given.contains o then .error (.repeated o)
  else .ok { s with given := o :: s.given }

def setValue (s : Progress) (o : CommandOption) (value : String) : Except ArgumentFault Progress := do
  let s ← give s o
  match o with
  | .entry => return { s with arguments.entries := s.arguments.entries ++ [value] }
  | .format =>
    match OutputFormat.ofText? value with
    | some format => return { s with arguments.format := format }
    | none => throw (.invalidValue o value)
  | .logLevel => if logLevels.contains value then return s else throw (.invalidValue o value)
  | .logFile => if value.isEmpty then throw (.missingValue o) else return s
  | _ => throw (.unexpectedValue o value)

def setFlag (s : Progress) (o : CommandOption) : Except ArgumentFault Progress := do
  let s ← give s o
  match o with
  | .realtime => return { s with arguments.realtime := true }
  | .failOnWarnings => return { s with arguments.failOnWarnings := true }
  | .noColor => return { s with arguments.noColor := true }
  | _ => return s

inductive Request where
  | help
  | check (a : CheckArguments)
deriving DecidableEq, Repr, Inhabited

def read (s : Progress) : List String → Except ArgumentFault Request
  | [] => .ok (.check s.arguments)
  | argument :: rest =>
    match formOf argument with
    | .unknown => .error (.unknown argument)
    | .onlyPaths => do return .check (← rest.foldlM addPath s).arguments
    | .path text => do read (← addPath s text) rest
    | .option .help none => .ok .help
    | .option o (some value) => do
      if !o.takesValue then throw (.unexpectedValue o value)
      read (← setValue s o value) rest
    | .option o none =>
      if !o.takesValue then do read (← setFlag s o) rest
      else
        match rest with
        | [] => .error (.missingValue o)
        | value :: rest =>
          if looksLikeOption value then .error (.missingValue o)
          else do read (← setValue s o value) rest

def parse (arguments : List String) : Except ArgumentFault Request :=
  read {} arguments

def targets (a : CheckArguments) : List DiskPath :=
  if a.paths.isEmpty then [.ofText "."] else a.paths.map .ofText

end CheckArguments

end LuaAnalysis
