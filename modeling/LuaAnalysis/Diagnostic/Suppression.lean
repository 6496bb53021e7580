import LuaAnalysis.Config.Basic
import LuaAnalysis.Diagnostic.Kind
import LuaAnalysis.Regex.Parser
import LuaAnalysis.Text.Replace

/-!
# What is not reported

Settings switch off kinds everywhere, all kinds in some files, and some kinds in some files. Files are named by patterns:
a piece of the path, or a regular expression after `re:`.
-/

namespace LuaAnalysis

inductive FilePattern where
  | part (text : String)
  | regex (r : Regex)
deriving DecidableEq, Repr, Inhabited

namespace FilePattern

/-- Reads a pattern; a regular expression that cannot be read gives none. -/
def ofText? (text : String) : Option FilePattern :=
  match Text.dropPrefix? "re:".toList text.toList with
  | some r => (Regex.parse? (String.ofList r)).map regex
  | none => some (part (String.ofList (Text.replaceAll ['\\'] ['/'] text.toList)))

def isMatch : FilePattern → String → Bool
  | part text, path => Text.containsText text.toList path.toList
  | regex r, path => r.isMatch path

end FilePattern

/-- A setting that cannot be used. -/
inductive SettingFault where
  | unknownKind (name : String)
  | invalidPattern (pattern : String)
deriving DecidableEq, Repr, Inhabited

def SettingFault.message : SettingFault → String
  | unknownKind name => s!"Unknown diagnostic kind: '{name}'"
  | invalidPattern pattern => s!"Invalid file pattern '{pattern}'"

structure Suppression where
  disabledKinds : List Kind := []
  ignoredFiles : List FilePattern := []
  fileKinds : List (FilePattern × List Kind) := []
deriving DecidableEq, Repr, Inhabited

namespace Suppression

def kindsOf (names : List String) : List Kind :=
  names.filterMap Kind.ofText?

def unknownKinds (names : List String) : List SettingFault :=
  (names.filter fun n => (Kind.ofText? n).isNone).map .unknownKind

def invalidPattern (pattern : String) : List SettingFault :=
  if (FilePattern.ofText? pattern).isNone then [.invalidPattern pattern] else []

/-- The settings that can be used. -/
def ofConfig (c : DiagnosticsConfig) : Suppression :=
  { disabledKinds := kindsOf c.disabled
    ignoredFiles := c.ignoreFiles.filterMap FilePattern.ofText?
    fileKinds := c.ignoreFileKinds.entries.filterMap fun (pattern, names) =>
      (FilePattern.ofText? pattern).map fun p => (p, kindsOf names) }

/-- The settings that cannot be used. -/
def faults (c : DiagnosticsConfig) : List SettingFault :=
  unknownKinds c.disabled ++ c.ignoreFiles.flatMap invalidPattern
    ++ c.ignoreFileKinds.entries.flatMap fun (pattern, names) => unknownKinds names ++ invalidPattern pattern

def disable (s : Suppression) (k : Kind) : Suppression :=
  { s with disabledKinds := k :: s.disabledKinds }

def isSuppressed (s : Suppression) (path : String) (k : Kind) : Bool :=
  s.disabledKinds.contains k || s.ignoredFiles.any (·.isMatch path)
    || s.fileKinds.any fun (p, kinds) => kinds.contains k && p.isMatch path

end Suppression

end LuaAnalysis
