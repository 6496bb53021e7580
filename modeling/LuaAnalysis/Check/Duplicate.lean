import LuaAnalysis.Diagnostic.Finding
import LuaAnalysis.OrderedMap
import LuaAnalysis.Tree.Basic

/-!
# Repeated keys, values, parameters and conditions

`repeats` is the one rule behind three of the checks: of several places with the same key, each but the first is
reported, against the first.
-/

namespace LuaAnalysis

/-- A literal as a table key. Both zeros are one key, and a number is one key however it is written. -/
inductive Literal where
  | string (text : String)
  | number (bits : UInt64)
  | bool (value : Bool)
deriving DecidableEq, Repr, Inhabited

namespace Literal

def ofExp? : Exp → Option Literal
  | .string _ text => some (.string text)
  | .number _ n => some (.number n.keyBits)
  | .bool _ b => some (.bool b)
  | .paren _ inner => ofExp? inner
  | _ => none

def text : Literal → String
  | string text => text
  | number bits => Binary64.toText bits
  | bool value => if value then "true" else "false"

end Literal

namespace Check

/-- A later place with a key, and the first place with it. -/
structure Repeat (κ : Type u) where
  key : κ
  range : TextRange
  first : TextRange

/-- The places whose key has come before, each with the first place of its key. -/
def repeatsAfter [DecidableEq κ] (seen : OrderedMap κ TextRange) : List (κ × TextRange) → List (Repeat κ)
  | [] => []
  | (k, r) :: rest =>
    match seen.get? k with
    | some first => ⟨k, r, first⟩ :: repeatsAfter seen rest
    | none => repeatsAfter (seen.insert k r) rest

def repeats [DecidableEq κ] (places : List (κ × TextRange)) : List (Repeat κ) :=
  repeatsAfter {} places

def literalKey? : Field → Option (Literal × TextRange)
  | .named key _ => some (.string key.text, key.range)
  | .keyed key _ => (Literal.ofExp? key).map (·, key.range)
  | .positional _ => none

def literalValue? : Field → Option (Literal × TextRange)
  | .named _ value | .keyed _ value => (Literal.ofExp? value).map (·, value.range)
  | .positional _ => none

def duplicateKeys (fields : List Field) : List Finding :=
  (repeats (fields.filterMap literalKey?)).map fun d =>
    { kind := .duplicateKey
      message := s!"duplicate key '{d.key.text}' in table"
      range := d.range
      related := [⟨"first defined here", d.first⟩] }

/-- Literal values that two keys of a table constructor share. -/
def duplicateEnumValues (fields : List Field) : List Finding :=
  (repeats (fields.filterMap literalValue?)).map fun d =>
    { kind := .duplicateEnumValue
      message := s!"duplicate enum value '{d.key.text}'"
      range := d.range
      related := [⟨"first used here", d.first⟩] }

def duplicateParams (params : List Name) : List Finding :=
  (repeats (params.map fun p => (p.text, p.range))).map fun d =>
    { kind := .duplicateParam
      message := s!"duplicate parameter '{d.key}'"
      range := d.range
      related := [⟨"first declared here", d.first⟩] }

def duplicateConditionsAfter (earlier : List Exp) : List Exp → List Finding
  | [] => []
  | c :: cs =>
    let found := if c.hasCall then none else earlier.find? (·.sameAs c)
    let rest := duplicateConditionsAfter (earlier ++ [c]) cs
    match found with
    | some first =>
      { kind := .duplicateIf
        message := "duplicate condition in if chain"
        range := c.range
        related := [⟨"same condition here", first.range⟩] } :: rest
    | none => rest

/-- Conditions of an `if` chain that are the same as an earlier one and call nothing. -/
def duplicateConditions (clauses : List Clause) : List Finding :=
  duplicateConditionsAfter [] (clauses.map (·.cond))

end Check

end LuaAnalysis
