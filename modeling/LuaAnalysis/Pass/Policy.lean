import LuaAnalysis.Diagnostic.Kind

/-!
# Passes and what they report

Five passes share one walk. A pass reports the kinds that it is listed for; in real-time use only the kinds that are
cheap enough are reported.
-/

namespace LuaAnalysis

inductive Pass where
  /-- One file, seen alone. -/
  | fileLocal
  /-- From the entry files along their loads. -/
  | project
  /-- One file against what the first pass found in the others. -/
  | scattered
  | referenceSearch
  | coloring
deriving DecidableEq, Repr, Inhabited

namespace Pass

def number : Pass → Nat
  | fileLocal => 1
  | project => 2
  | scattered => 3
  | referenceSearch => 4
  | coloring => 5

def all : List Pass :=
  [fileLocal, project, scattered, referenceSearch, coloring]

end Pass

namespace Kind

def passes : Kind → List Pass
  | undefinedGlobal | undefinedMember => [.project, .scattered]
  | loadOrder => [.project]
  | duplicateKey | duplicateEnumValue | unusedLocal | unusedLocalFunction => [.fileLocal]
  | syntaxError | callArity | argumentType | binaryOperandType | maybeNil => [.fileLocal, .project, .scattered]
  | importNotFound | assignCount | duplicateParam | returnType | assignmentType | duplicateIf | selfAssign
  | orAlwaysTrue | andAlwaysFalse | duplicateExp | floatEquality | constAssign | unknownGotoLabel =>
    [.fileLocal, .project]

/-- Whether a kind is still reported in real-time use. -/
def isRealtime : Kind → Bool
  | duplicateKey | duplicateEnumValue | duplicateIf | duplicateExp | unusedLocal | unusedLocalFunction => false
  | _ => true

end Kind

def Pass.reports (p : Pass) (k : Kind) (realtime : Bool) : Bool :=
  k.passes.contains p && (k.isRealtime || !realtime)

end LuaAnalysis
