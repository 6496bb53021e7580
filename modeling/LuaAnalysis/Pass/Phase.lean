import LuaAnalysis.File.Index
import LuaAnalysis.Pass.Policy

/-!
# Which files a pass is in the middle of

A walk that meets a load suspends the current file and goes on with the loaded one. The stack of files that have been
entered and not left tells what the pass is doing, and a load of a file on the stack closes a cycle.
-/

namespace LuaAnalysis

inductive Phase where
  | idle
  | walking (pass : Pass) (file : FileId)
  /-- `suspended` waits for a load while `target` is walked. -/
  | nested (pass : Pass) (suspended target : FileId)
  | done
deriving DecidableEq, Repr, Inhabited

/-- The files that a pass has entered and not left, the innermost first. -/
structure PhaseTracker where
  pass : Pass
  active : List FileId := []
  done : Bool := false
deriving DecidableEq, Repr, Inhabited

namespace PhaseTracker

def enter (t : PhaseTracker) (file : FileId) : PhaseTracker :=
  { t with active := file :: t.active, done := false }

def leave (t : PhaseTracker) : PhaseTracker :=
  { t with active := t.active.tail }

def finish (t : PhaseTracker) : PhaseTracker :=
  { t with active := [], done := true }

def isActive (t : PhaseTracker) (file : FileId) : Bool :=
  t.active.contains file

def stack (t : PhaseTracker) : List FileId :=
  t.active.reverse

def phase (t : PhaseTracker) : Phase :=
  if t.done then .done
  else
    match t.active with
    | [] => .idle
    | [file] => .walking t.pass file
    | target :: suspended :: _ => .nested t.pass suspended target

end PhaseTracker

end LuaAnalysis
