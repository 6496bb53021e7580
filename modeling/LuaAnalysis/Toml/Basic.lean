import LuaAnalysis.OrderedMap

/-!
# TOML documents

A document is a table of items. A table remembers how it came to be, because a table may be opened by a header only once
and dotted keys may only add to tables that dotted keys made.
-/

namespace LuaAnalysis.Toml

mutual

inductive Item where
  | text (value : String)
  /-- An integer, a float or a boolean; what it is makes no difference to the settings. -/
  | scalar
  | dateTime
  | array (values : List Item)
  | inline (t : Table)
  /-- A table of a header or of dotted keys. -/
  | table (t : Table)
  /-- The tables of repeated headers in double brackets. -/
  | tables (ts : List Table)

structure Table where
  entries : List (String × Item)
  /-- Made on the way to another table. -/
  implicit : Bool
  /-- Made by dotted keys. -/
  dotted : Bool

end

deriving instance Repr for Item, Table
deriving instance Inhabited for Item, Table

namespace Table

def new (implicit dotted : Bool) : Table :=
  { entries := [], implicit, dotted }

def get? (t : Table) (key : String) : Option Item :=
  OrderedMap.find? key t.entries

def put (t : Table) (key : String) (i : Item) : Table :=
  { t with entries := OrderedMap.put key i t.entries }

/-- Adds an entry; a key that is there already is refused. -/
def add? (t : Table) (key : String) (i : Item) : Option Table :=
  if (t.get? key).isSome then none else some (t.put key i)

/-- Changes the table at the end of a path. Tables on the way are made where there are none; in repeated tables the way
goes through the last. Dotted keys may not go through a table that a header has opened. -/
def changeAt? (dotted : Bool) (path : List String) (f : Table → Option Table) (t : Table) : Option Table :=
  match path with
  | [] => f t
  | key :: path =>
    match t.get? key with
    | none => do return t.put key (.table (← changeAt? dotted path f (.new true dotted)))
    | some (.table inner) =>
      if dotted && !inner.implicit then none
      else do return t.put key (.table (← changeAt? dotted path f inner))
    | some (.tables ts) => do
      let last ← ts.getLast?
      return t.put key (.tables (ts.dropLast ++ [← changeAt? dotted path f last]))
    | some _ => none

/-- Adds an entry below a dotted key. The table that gets it has to be one that dotted keys made, or, without dots, one
that they did not make. -/
def addDotted? (t : Table) (path : List String) (key : String) (i : Item) : Option Table :=
  t.changeAt? true path fun inner => if inner.dotted = path.isEmpty then none else inner.add? key i

/-- Changes the table of a braced table that a dotted key leads to. -/
def changeInline? (path : List String) (f : Table → Option Table) (t : Table) : Option Table :=
  match path with
  | [] => f t
  | key :: path =>
    match t.get? key with
    | none => do return t.put key (.inline (← changeInline? path f (.new true true)))
    | some (.inline inner) =>
      if inner.implicit then do return t.put key (.inline (← changeInline? path f inner)) else none
    | some _ => none

def addInline? (t : Table) (path : List String) (key : String) (i : Item) : Option Table :=
  t.changeInline? path fun inner => if inner.dotted = path.isEmpty then none else inner.add? key i

/-- Opens the table of a header, which may have been made on the way to another one. -/
def openTable? (t : Table) (path : List String) (key : String) : Option Table :=
  t.changeAt? false path fun parent =>
    match parent.get? key with
    | none => some (parent.put key (.table (.new false false)))
    | some (.table inner) =>
      if inner.implicit && !inner.dotted then some (parent.put key (.table { inner with implicit := false })) else none
    | some _ => none

def openNext? (t : Table) (path : List String) (key : String) : Option Table :=
  t.changeAt? false path fun parent =>
    match parent.get? key with
    | none => some (parent.put key (.tables [.new false false]))
    | some (.tables ts) => some (parent.put key (.tables (ts ++ [.new false false])))
    | some _ => none

end Table

end LuaAnalysis.Toml
