import LuaAnalysis.Command.Usage

/-!
# The program

Asks the real disk, runs the command line, and writes what it leaves behind.
-/

namespace LuaAnalysis.Main

def place (p : DiskPath) :=
  return (← IO.currentDir) / p.text

def kind? (p : DiskPath) : IO (Option EntryKind) := do
  if p.text.isEmpty then return none
  try
    match (← (← place p).metadata).type with
    | .dir => return some .directory
    | _ => return some .file
  catch _ => return none

def read (p : DiskPath) : IO (Except String (List UInt8)) := do
  try
    return .ok (← IO.FS.readBinFile (← place p)).toList
  catch e => return .error (toString e)

partial def filesBelow (enters : String → Bool) (p : DiskPath) : IO (List (List String)) := do
  let mut found := []
  for entry in ← (← place p).readDir do
    if enters entry.fileName then
      match ← kind? (p.join { pieces := [entry.fileName] }) with
      | some .file => found := [entry.fileName] :: found
      | some .directory =>
        let below ← filesBelow enters (p.join { pieces := [entry.fileName] })
        found := below.map (entry.fileName :: ·) ++ found
      | none => pure ()
  return found

def disk : Disk IO where
  kind? := kind?
  read := read
  filesBelow := filesBelow

def isOn (name : String) : IO (Option Bool) := do
  return (← IO.getEnv name).map (· != "0")

def colorChoice : IO ColorChoice := do
  let wanted := (← isOn "CLICOLOR").getD true
  return {
    forced := (← isOn "CLICOLOR_FORCE").getD false
    refused := (← IO.getEnv "NO_COLOR").isSome
    terminal := wanted && (← (← IO.getStdout).isTty) }

end LuaAnalysis.Main

def main (arguments : List String) : IO UInt32 := do
  let outcome ← LuaAnalysis.CommandLine.run LuaAnalysis.Main.disk (← LuaAnalysis.Main.colorChoice) arguments
  for line in outcome.notices do
    IO.eprintln line
  IO.print outcome.output
  return outcome.exitCode.toUInt32
