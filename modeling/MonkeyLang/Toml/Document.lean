/-!
# TOML documents

A TOML document is a table of values by keys. A table comes about in one of four ways, and that decides what may still be
added to it: a table written in braces is complete; a table with a header of its own takes no dotted keys from elsewhere
and no second header; a table that is only implied, by the header of a table inside it, may still get a header; and a
table made by dotted keys may get more of them. Numbers with a point or an exponent and dates are kept as they are
written.
-/

namespace MonkeyLang

/-- How a table came about. -/
inductive TableOrigin where
  /-- By a header of its own. -/
  | header
  /-- By the header of a table inside it. -/
  | implied
  /-- By a dotted key. -/
  | dotted
  /-- By braces. -/
  | braces
deriving DecidableEq, Repr

inductive Toml where
  | string (value : String)
  | integer (value : Int)
  | float (written : String)
  | boolean (value : Bool)
  | dateTime (written : String)
  | array (elements : List Toml)
  | table (origin : TableOrigin) (entries : List (String × Toml))
  /-- The tables that repeated headers made, the last of them apart. -/
  | tables (earlier : List (List (String × Toml))) (last : List (String × Toml))

namespace Toml

/-- The keys and values of a table, in order. -/
abbrev Entries := List (String × Toml)

/-- Puts a value in place of the one a key has. -/
def replace (key : String) (value : Toml) (entries : Entries) : Entries :=
  entries.map fun entry => if entry.1 = key then (key, value) else entry

/-- Adds a value under a dotted key, if nothing else has that key. -/
def insert (value : Toml) : List String → Entries → Option Entries
  | [], _ => none
  | [key], entries => if (entries.lookup key).isSome then none else some (entries ++ [(key, value)])
  | key :: next :: rest, entries =>
    match entries.lookup key with
    | none => (insert value (next :: rest) []).map fun inner => entries ++ [(key, .table .dotted inner)]
    | some (.table .dotted inner) =>
      (insert value (next :: rest) inner).map fun inner => replace key (.table .dotted inner) entries
    | some (.table .implied inner) =>
      if rest.isEmpty then none
      else (insert value (next :: rest) inner).map fun inner => replace key (.table .implied inner) entries
    | some (.tables earlier last) =>
      if rest.isEmpty then none
      else (insert value (next :: rest) last).map fun last => replace key (.tables earlier last) entries
    | some _ => none

/-- Changes the table that the keys of a header lead to. Tables that are missing on the way are implied. -/
def within (change : Entries → Option Entries) : List String → Entries → Option Entries
  | [], entries => change entries
  | key :: rest, entries =>
    match entries.lookup key with
    | none => (within change rest []).map fun inner => entries ++ [(key, .table .implied inner)]
    | some (.table .braces _) => none
    | some (.table origin inner) =>
      (within change rest inner).map fun inner => replace key (.table origin inner) entries
    | some (.tables earlier last) =>
      (within change rest last).map fun last => replace key (.tables earlier last) entries
    | some _ => none

/-- Makes a table that a header names, or gives a table its header that was only implied. -/
def addTable (key : String) (entries : Entries) : Option Entries :=
  match entries.lookup key with
  | none => some (entries ++ [(key, .table .header [])])
  | some (.table .implied inner) => some (replace key (.table .header inner) entries)
  | some _ => none

/-- Makes one more of the tables that repeated headers name. -/
def addToTables (key : String) (entries : Entries) : Option Entries :=
  match entries.lookup key with
  | none => some (entries ++ [(key, .tables [] [])])
  | some (.tables earlier last) => some (replace key (.tables (earlier ++ [last]) []) entries)
  | some _ => none

end Toml

end MonkeyLang
