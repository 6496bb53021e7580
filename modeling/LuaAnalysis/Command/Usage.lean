import LuaAnalysis.Command.Check

/-!
# The command line

The first argument names the command, and options for the log may stand before it. Everything else is read by the command.
-/

namespace LuaAnalysis.CommandLine

def usage : String :=
  "Usage: luma check [OPTIONS] [PATH]...\n"

def help : String :=
  "Analyze the Lua files of a project\n\n" ++ usage ++
  "\nArguments:\n" ++
  "  [PATH]...  Files or directories to analyze [default: .]\n" ++
  "\nOptions:\n" ++
  "      --entry <FILE>           Entry file of the project walk; repeatable\n" ++
  "  -f, --format <FORMAT>        Output format for diagnostics [possible values: pretty, json]\n" ++
  "      --realtime               Skip the checks that are too slow for editor use\n" ++
  "      --fail-on-warnings       Fail on warnings (exit code 1)\n" ++
  "      --no-color               Disable colored output\n" ++
  "      --log-level <LOG_LEVEL>  Set the log level [possible values: trace, debug, info, warn, error]\n" ++
  "      --log-file <LOG_FILE>    Write logs to the specified file\n" ++
  "      --log-json               Output logs in JSON format\n" ++
  "  -h, --help                   Print help\n"

/-- The arguments of the command; none if another command or none is named. -/
def checkArguments? : List String → Option (List String)
  | "check" :: rest => some rest
  | "--log-json" :: rest => (checkArguments? rest).map ("--log-json" :: ·)
  | name :: value :: rest =>
    if ["--log-level", "--log-file"].contains name then (checkArguments? rest).map (name :: value :: ·) else none
  | _ => none

variable {m : Type → Type} [Monad m]

/-- Runs the command line on a disk. Arguments that make no sense end it with exit code 2. -/
def run (disk : Disk m) (colors : ColorChoice) (arguments : List String) : m Outcome :=
  match (checkArguments? arguments).map CheckArguments.parse with
  | some (.ok (.check a)) => Check.run disk colors a
  | some (.ok .help) => return { output := help }
  | some (.error e) => return { exitCode := 2, notices := [s!"error: {e.message}", "", usage] }
  | none => return { exitCode := 2, notices := [usage] }

end LuaAnalysis.CommandLine
