/-!
# Maps in order of first insertion

Keys are kept in the order in which they first came; a key that is written again keeps its place. The laws of `get?` and
`keys` are what the rest of the library uses.
-/

namespace LuaAnalysis

/-- A map that remembers the order in which its keys came. -/
structure OrderedMap (κ : Type u) (α : Type v) where
  entries : List (κ × α) := []
deriving DecidableEq, Repr, Inhabited

namespace OrderedMap

variable {κ : Type u} {α : Type v}

def keys (m : OrderedMap κ α) : List κ :=
  m.entries.map (·.1)

def values (m : OrderedMap κ α) : List α :=
  m.entries.map (·.2)

def size (m : OrderedMap κ α) : Nat :=
  m.entries.length

def isEmpty (m : OrderedMap κ α) : Bool :=
  m.entries.isEmpty

def mapValues (f : α → β) (m : OrderedMap κ α) : OrderedMap κ β :=
  ⟨m.entries.map fun (k, v) => (k, f v)⟩

section Lookup

variable [DecidableEq κ]

def find? (k : κ) : List (κ × α) → Option α
  | [] => none
  | (k', v) :: es => if k' = k then some v else find? k es

/-- The entries with `v` at `k`: in the key's place, or at the end. -/
def put (k : κ) (v : α) : List (κ × α) → List (κ × α)
  | [] => [(k, v)]
  | (k', v') :: es => if k' = k then (k', v) :: es else (k', v') :: put k v es

def get? (m : OrderedMap κ α) (k : κ) : Option α :=
  find? k m.entries

def contains (m : OrderedMap κ α) (k : κ) : Bool :=
  (m.get? k).isSome

def insert (m : OrderedMap κ α) (k : κ) (v : α) : OrderedMap κ α :=
  ⟨put k v m.entries⟩

/-- The first value of a key stays. -/
def insertIfNew (m : OrderedMap κ α) (k : κ) (v : α) : OrderedMap κ α :=
  if m.contains k then m else m.insert k v

def erase (m : OrderedMap κ α) (k : κ) : OrderedMap κ α :=
  ⟨m.entries.filter (·.1 ≠ k)⟩

def alter (m : OrderedMap κ α) (k : κ) (f : Option α → α) : OrderedMap κ α :=
  m.insert k (f (m.get? k))

theorem find?_put (k k' : κ) (v : α) (es : List (κ × α)) :
    find? k' (put k v es) = if k = k' then some v else find? k' es := by
  induction es with
  | nil => simp [put, find?]
  | cons e es ih =>
    obtain ⟨a, b⟩ := e
    grind [put, find?]

@[simp] theorem get?_insert (m : OrderedMap κ α) (k k' : κ) (v : α) :
    (m.insert k v).get? k' = if k = k' then some v else m.get? k' :=
  find?_put k k' v m.entries

theorem get?_insertIfNew (m : OrderedMap κ α) (k k' : κ) (v : α) :
    (m.insertIfNew k v).get? k' = if k = k' then some ((m.get? k).getD v) else m.get? k' := by
  unfold insertIfNew contains
  cases h : m.get? k with
  | none => simp
  | some w =>
    by_cases e : k = k'
    · subst e
      simp [h]
    · simp [e]

/-- A new key goes to the end and a known one changes nothing. -/
theorem keys_insert (m : OrderedMap κ α) (k : κ) (v : α) :
    (m.insert k v).keys = if k ∈ m.keys then m.keys else m.keys ++ [k] := by
  obtain ⟨es⟩ := m
  simp only [insert, keys]
  induction es with
  | nil => simp [put]
  | cons e es ih =>
    obtain ⟨a, b⟩ := e
    by_cases h : a = k
    · simp [put, h]
    · have h' : ¬ k = a := fun e => h e.symm
      simp only [put, h, if_false, List.map_cons, List.mem_cons, h', false_or, ih]
      split <;> simp_all

end Lookup

end OrderedMap

end LuaAnalysis
