/-!
Values and tables of TOML documents. A table remembers how it came about, because
this decides what may still be added to it: an inline table is complete, a table
made by a dotted key grows only by dotted keys, and one that exists only as the
parent of another may still get a header of its own. An array of tables grows by one
table with each of its headers, and whatever else names it means its last table.
-/

namespace MicroC.Toml

inductive TableKind where
  | inline | header | parent | dotted
deriving DecidableEq, Repr

/-- A value. What a float or a moment of time says is not kept, because no setting needs it. -/
inductive Value where
  | string (text : String)
  | integer (value : Int)
  | float
  | moment
  | boolean (value : Bool)
  | array (items : List Value)
  | table (kind : TableKind) (entries : List (String × Value))
  /-- The tables that headers in double brackets have opened, the last one separate. -/
  | tables (before : List (List (String × Value))) (last : List (String × Value))

abbrev Entries := List (String × Value)

namespace Value

/-- The items of an array, however it is written. -/
def items? : Value → Option (List Value)
  | array items => some items
  | tables before last => some ((before ++ [last]).map (table .header))
  | _ => none

/-- Changes the table that a value is or, for an array of tables, its last table. -/
def update (change : Entries → Option Entries) : Value → Option Value
  | table kind inner => (change inner).map (table kind)
  | tables before last => (change last).map (tables before)
  | _ => none

/-- Whether a value is a table or an array that holds nothing. -/
def isEmpty : Value → Bool
  | table _ [] | array [] => true
  | _ => false

end Value

namespace Entries

def replace (entries : Entries) (key : String) (value : Value) : Entries :=
  entries.map fun entry => if entry.1 = key then (key, value) else entry

/-- Adds a value under a dotted key; every key may be given once. The table that gets the value
was made by dotted keys, or the key has one part only; on the way to it there may also be tables
that a header made as parents, and arrays of tables. -/
def put (value : Value) : List String → Entries → Option Entries
  | [], _ => none
  | [key], entries =>
    match entries.lookup key with
    | none => some (entries ++ [(key, value)])
    | some _ => none
  | key :: path, entries =>
    match entries.lookup key with
    | none => (put value path []).map fun inner => entries ++ [(key, .table .dotted inner)]
    | some old =>
      let extensible := match old with
        | .table .dotted _ => true
        | .table .parent _ | .tables .. => path.length ≠ 1
        | _ => false
      if extensible then (old.update (put value path)).map (entries.replace key) else none

/-- Changes what a header names: `change` gets the value that stands under the last part of its
key. Tables on the way are made as parents; an inline table cannot be extended. -/
def atHeader (change : Option Value → Option Value) : List String → Entries → Option Entries
  | [], _ => none
  | [key], entries =>
    match entries.lookup key with
    | none => (change none).map fun new => entries ++ [(key, new)]
    | some old => (change (some old)).map (entries.replace key)
  | key :: path, entries =>
    match entries.lookup key with
    | none => (atHeader change path []).map fun inner => entries ++ [(key, .table .parent inner)]
    | some (.table .inline _) => none
    | some old => (old.update (atHeader change path)).map (entries.replace key)

/-- Opens the table of a header; every table may be opened once. -/
def openTable : List String → Entries → Option Entries :=
  atHeader fun
    | none => some (.table .header [])
    | some (.table .parent inner) => some (.table .header inner)
    | some _ => none

/-- Opens the next table of an array of tables. -/
def openNext : List String → Entries → Option Entries :=
  atHeader fun
    | none => some (.tables [] [])
    | some (.tables before last) => some (.tables (before ++ [last]) [])
    | some _ => none

/-- Changes the table that was opened last, which stands at the given path. -/
def update (change : Entries → Option Entries) : List String → Entries → Option Entries
  | [], entries => change entries
  | key :: path, entries => do
    let old ← entries.lookup key
    let new ← old.update (update change path)
    return entries.replace key new

end Entries

end MicroC.Toml
