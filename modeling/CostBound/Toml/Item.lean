/-!
# TOML tables

A document is a table of items. Tables come about in four ways, and the way decides what may be added later.

* `Toml.Item` — values, tables and arrays of tables.
* `Toml.setDotted` — gives a value to a dotted key.
* `Toml.openTable`, `Toml.openRow` — what the headers `[a.b]` and `[[a.b]]` do.
-/

namespace CostBound.Toml

/-- A value without parts. Floats and dates are recognised, but their values are not kept. -/
inductive Scalar where
  | string (value : String)
  | integer (value : Int64)
  | boolean (value : Bool)
  | float
  | moment
deriving DecidableEq, Repr

/-- How a table came about. -/
inductive Origin where
  /-- Written in braces: nothing can be added. -/
  | inline
  /-- By a header of its own. -/
  | header
  /-- By the header of a table inside it. -/
  | implied
  /-- By a dotted key. -/
  | dotted
deriving DecidableEq, Repr

/-- What a key of a document stands for. -/
inductive Item where
  | scalar (value : Scalar)
  | array (items : List Item)
  | table (origin : Origin) (entries : List (String × Item))
  /-- Tables under headers in double brackets; there is at least one. -/
  | tables (earlier : List (List (String × Item))) (last : List (String × Item))
deriving Repr

/-- The contents of a table, in the order of its keys' first appearance. -/
abbrev Entries := List (String × Item)

/-- Changes what a key stands for, which is nothing if the key is new. -/
def Entries.alter (key : String) (change : Option Item → Option Item) : Entries → Option Entries
  | [] => do return [(key, ← change none)]
  | (k, item) :: entries =>
      if k = key then do return (k, ← change (some item)) :: entries
      else do return (k, item) :: (← alter key change entries)

/-! ### Keys -/

/-- What `within` does inside the table that a part of a dotted key names; `final` marks the last such table. A table
with a header is not entered, and the last table must be one that dotted keys have made. -/
def enterDotted (final : Bool) (within : Entries → Option Entries) : Option Item → Option Item
  | none => do return .table .dotted (← within [])
  | some (.table .dotted entries) => do return .table .dotted (← within entries)
  | some (.table .implied entries) =>
      if final then none else do return .table .implied (← within entries)
  | some (.tables earlier last) =>
      if final then none else do return .tables earlier (← within last)
  | some _ => none

/-- Gives a value to a dotted key, which must be new. -/
def setDotted (key : String) (value : Item) : List String → Entries → Option Entries
  | [], entries => entries.alter key fun
      | none => some value
      | some _ => none
  | k :: path, entries => entries.alter k (enterDotted path.isEmpty (setDotted key value path))

/-! ### Headers -/

/-- What `within` does inside the table that a part of a header names. -/
def enterHeader (within : Entries → Option Entries) : Option Item → Option Item
  | none => do return .table .implied (← within [])
  | some (.table .inline _) => none
  | some (.table origin entries) => do return .table origin (← within entries)
  | some (.tables earlier last) => do return .tables earlier (← within last)
  | some _ => none

/-- What `within` does inside the table that a header names. -/
def atHeader (within : Entries → Option Entries) : List String → Entries → Option Entries
  | [], entries => within entries
  | k :: path, entries => entries.alter k (enterHeader (atHeader within path))

/-- The header `[path.key]`: the table must be new, or known only by tables inside it. -/
def openTable (key : String) : List String → Entries → Option Entries :=
  atHeader fun entries => entries.alter key fun
    | none => some (.table .header [])
    | some (.table .implied inner) => some (.table .header inner)
    | some _ => none

/-- The header `[[path.key]]`: starts another table of an array. -/
def openRow (key : String) : List String → Entries → Option Entries :=
  atHeader fun entries => entries.alter key fun
    | none => some (.tables [] [])
    | some (.tables earlier last) => some (.tables (earlier ++ [last]) [])
    | some _ => none

end CostBound.Toml
