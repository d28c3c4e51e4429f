import Railroad.Catalog

/-!
# TOML values

A document is a table.  A table remembers how it came into being, since that decides what may
be added to it later: a table written inline is closed, one that only was on the way to another
may still get its header, and dotted keys add to no table that has a header of its own.
-/

namespace Railroad.Toml

/-- How a table came into being. -/
inductive Origin where
  /-- Written between braces. -/
  | inline
  /-- Named by a header of its own. -/
  | header
  /-- On the way to a table that a header names. -/
  | implied
  /-- On the way to a value that a dotted key names. -/
  | dotted
  deriving DecidableEq, Repr

inductive Value where
  | text (content : String)
  | integer (number : Int)
  | float (number : Float)
  /-- A number that is larger than the numbers that are kept. -/
  | excessive
  | boolean (flag : Bool)
  /-- A date, a time or both. -/
  | moment
  | array (items : List Value)
  | table (origin : Origin) (entries : List (String × Value))
  /-- Tables under one header in double brackets; new entries go to the last one. -/
  | tables (items : List (List (String × Value)))

abbrev Entries := List (String × Value)

mutual

/-- Whether all numbers in a value could be kept. -/
def Value.isReadable : Value → Bool
  | .excessive => false
  | .array items => Value.allReadable items
  | .table _ entries => Entries.allReadable entries
  | .tables items => Value.tablesReadable items
  | .text _ | .integer _ | .float _ | .boolean _ | .moment => true

def Value.allReadable : List Value → Bool
  | [] => true
  | value :: rest => value.isReadable && Value.allReadable rest

def Entries.allReadable : List (String × Value) → Bool
  | [] => true
  | (_, value) :: rest => value.isReadable && Entries.allReadable rest

def Value.tablesReadable : List (List (String × Value)) → Bool
  | [] => true
  | entries :: rest => Entries.allReadable entries && Value.tablesReadable rest

end

namespace Entries

def get? (entries : Entries) (key : String) : Option Value := entries.lookup key

/-- Changes the value under a key, or adds one, where the change is allowed. -/
def alter (key : String) (change : Option Value → Option Value) : Entries → Option Entries
  | [] => (change none).map fun value => [(key, value)]
  | (other, value) :: rest =>
      if other = key then (change (some value)).map fun changed => (other, changed) :: rest
      else (alter key change rest).map ((other, value) :: ·)

/-- Changes the last of several tables. -/
def alterLast (change : Entries → Option Entries) : List Entries → Option (List Entries)
  | [] => none
  | [last] => (change last).map ([·])
  | first :: rest => (alterLast change rest).map (first :: ·)

/-- Changes the table that the last header opened. -/
def inSection (change : Entries → Option Entries) : List String → Entries → Option Entries
  | [], entries => change entries
  | key :: path, entries =>
      alter key (fun
        | some (.table origin inner) => (inSection change path inner).map (.table origin)
        | some (.tables items) => (alterLast (inSection change path) items).map .tables
        | _ => none) entries

/-- Changes the table that a header leads through, making it where there is none. -/
def underHeader (change : Entries → Option Entries) : List String → Entries → Option Entries
  | [], entries => change entries
  | key :: path, entries =>
      alter key (fun
        | none => (underHeader change path []).map (.table .implied)
        | some (.table .inline _) => none
        | some (.table origin inner) => (underHeader change path inner).map (.table origin)
        | some (.tables items) => (alterLast (underHeader change path) items).map .tables
        | some _ => none) entries

/--
Changes the table that a dotted key leads to, making it where there is none.  The way may go
through the last of several tables but does not end there.
-/
def underDots (change : Entries → Option Entries) : List String → Entries → Option Entries
  | [], entries => change entries
  | key :: path, entries =>
      alter key (fun
        | none => (underDots change path []).map (.table .dotted)
        | some (.table .inline _) | some (.table .header _) => none
        | some (.table origin inner) => (underDots change path inner).map (.table origin)
        | some (.tables items) =>
            if path.isEmpty then none else (alterLast (underDots change path) items).map .tables
        | some _ => none) entries

/-- Enters a value under a dotted key that has none yet. -/
def define (path : List String) (key : String) (value : Value) : Entries → Option Entries :=
  underDots (alter key fun
    | none => some value
    | some _ => none) path

/-- Opens the table of a header. -/
def openTable (path : List String) (key : String) : Entries → Option Entries :=
  underHeader (alter key fun
    | none => some (.table .header [])
    | some (.table .implied inner) => some (.table .header inner)
    | some _ => none) path

/-- Opens one more table under a header in double brackets. -/
def openNext (path : List String) (key : String) : Entries → Option Entries :=
  underHeader (alter key fun
    | none => some (.tables [[]])
    | some (.tables items) => some (.tables (items ++ [[]]))
    | some _ => none) path

end Entries

end Railroad.Toml
