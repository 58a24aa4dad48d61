/-!
# Values and tables of TOML

A table is a list of entries in the order in which they were made. How it came about
decides in which ways it can still be extended, so every table inside another one
carries its origin.
-/
namespace FlatXor.Toml

/-- How a table came about. -/
inductive TableOrigin where
  /-- By a header of its own. -/
  | header
  /-- On the way to the table of a header. -/
  | implied
  /-- By a dotted key. -/
  | dotted
  /-- As a value in braces, which cannot be extended. -/
  | inline
  deriving Repr, DecidableEq

inductive Value where
  | string (text : String)
  | integer (value : Int)
  | float
  | boolean (value : Bool)
  | dateTime
  | array (items : List Value)
  | table (origin : TableOrigin) (entries : List (String × Value))
  /-- The tables that were made by repeated headers in double brackets. There is at
  least one. -/
  | tables (elements : List (List (String × Value)))
  deriving Repr

abbrev Entries : Type := List (String × Value)

namespace Entries

/-- Gives the entry another value, in its place. -/
def replace (entries : Entries) (key : String) (value : Value) : Entries :=
  entries.map fun e => if e.1 == key then (key, value) else e

def has (entries : Entries) (key : String) : Bool := (entries.lookup key).isSome

/-- Adds an entry, unless the key is taken. -/
def add? (entries : Entries) (key : String) (value : Value) : Option Entries :=
  if entries.has key then none else some (entries ++ [(key, value)])

/-- Removes an entry. -/
def remove (entries : Entries) (key : String) : Entries := entries.filter (·.1 != key)

/-- Changes the table at the end of a path. On the way it goes into tables that are
there, into the latest of repeated tables, and into new tables of the given origin.
A path of a dotted key may not lead into a table that has a header of its own. The
change is told the origin of the table that it is made to. -/
def modifyAt (added : TableOrigin) (change : TableOrigin → Entries → Option Entries) :
    List String → TableOrigin → Entries → Option Entries
  | [], origin, entries => change origin entries
  | key :: path, _, entries =>
    match entries.lookup key with
    | none =>
      (modifyAt added change path added []).map fun child =>
        entries ++ [(key, .table added child)]
    | some (.table .inline _) => none
    | some (.table .header child) =>
      if added = .dotted then none
      else
        (modifyAt added change path .header child).map fun child =>
          entries.replace key (.table .header child)
    | some (.table origin child) =>
      (modifyAt added change path origin child).map fun child =>
        entries.replace key (.table origin child)
    | some (.tables elements) =>
      match elements.getLast? with
      | none => none
      | some child =>
        (modifyAt added change path .header child).map fun child =>
          entries.replace key (.tables (elements.dropLast ++ [child]))
    | some _ => none

/-- Adds the value of a key, which may be dotted. All parts but the last name tables.
A dotted key adds only to tables that dotted keys have made. -/
def assign? (entries : Entries) (path : List String) (key : String) (value : Value) :
    Option Entries :=
  modifyAt .dotted
    (fun origin target =>
      if decide (origin = .dotted) = path.isEmpty then none else target.add? key value)
    path .header entries

end Entries

end FlatXor.Toml
