import FlatXor.Toml.WrittenValue

/-!
# TOML documents

A document is a sequence of lines: key and value, header, header in double brackets,
comment or nothing. Keys belong to the table of the header above them. Only the table
of the latest header is open. It is put in its place when the next header comes, or
the end of the text.
-/
namespace FlatXor.Toml

/-- Where the open table goes. -/
inductive Place where
  /-- It is the whole document. -/
  | root
  /-- It is the table of that name. -/
  | table (path : List String) (key : String)
  /-- It is the next of the repeated tables of that name. -/
  | element (path : List String) (key : String)
  deriving Repr, DecidableEq

/-- A document of which some lines have been read. -/
structure Document where
  /-- All tables but the open one. -/
  root : Entries
  place : Place
  /-- The open table. -/
  current : Entries

namespace Document

def start : Document := ⟨[], .root, []⟩

/-- The whole document, with the open table in its place. -/
def close? (d : Document) : Option Entries :=
  match d.place with
  | .root => some d.current
  | .table path key =>
    d.root.modifyAt .implied (fun _ parent => parent.add? key (.table .header d.current)) path
      .header
  | .element path key =>
    d.root.modifyAt .implied
      (fun _ parent =>
        match parent.lookup key with
        | none => some (parent ++ [(key, .tables [d.current])])
        | some (.tables elements) =>
          some (parent.replace key (.tables (elements ++ [d.current])))
        | some _ => none)
      path .header

/-- The entries of the table that is at `key` already, and the parent without it. Only a
table that headers of other tables have implied can be given its own header. -/
def reopen? (parent : Entries) (key : String) : Option (Entries × Entries) :=
  match parent.lookup key with
  | none => some ([], parent)
  | some (.table .implied child) => some (child, parent.remove key)
  | some _ => none

/-- The table at the end of a path, as a header sees it. A table that is not there has
no entries. -/
def tableAt? (entries : Entries) (path : List String) : Option Entries :=
  match path with
  | [] => some entries
  | key :: path =>
    match entries.lookup key with
    | none => some []
    | some (.table .inline _) => none
    | some (.table _ child) => tableAt? child path
    | some (.tables elements) => elements.getLast?.bind (tableAt? · path)
    | some _ => none

/-- Opens the table of a header. -/
def openTable? (d : Document) (path : List String) (key : String) : Option Document := do
  let root ← d.close?
  let parent ← tableAt? root path
  let (current, _) ← reopen? parent key
  let root ← root.modifyAt .implied (fun _ parent => (reopen? parent key).map (·.2)) path .header
  return ⟨root, .table path key, current⟩

/-- Opens a new element of the repeated tables of a header. -/
def openElement? (d : Document) (path : List String) (key : String) : Option Document := do
  let root ← d.close?
  let parent ← tableAt? root path
  match parent.lookup key with
  | none => return ⟨root, .element path key, []⟩
  | some (.tables _) => return ⟨root, .element path key, []⟩
  | some _ => none

/-- Adds the value of a key to the open table. -/
def assign? (d : Document) (key : List String) (v : Value) : Option Document :=
  (assignKey? d.current key v).map fun current => { d with current }

/-- Reads a line that starts with something else than a blank. -/
def readLine (d : Document) : Reader Document
  | [] => some (d, [])
  | '#' :: rest => (lineEnd? ('#' :: rest)).map (d, ·)
  | '[' :: '[' :: rest => do
    let (key, rest) ← readKey rest
    let rest ← lineEnd? (← takeChar ']' (← takeChar ']' rest))
    return (← d.openElement? key.dropLast (← key.getLast?), rest)
  | '[' :: rest => do
    let (key, rest) ← readKey rest
    let rest ← lineEnd? (← takeChar ']' rest)
    return (← d.openTable? key.dropLast (← key.getLast?), rest)
  | cs =>
    match newline? cs with
    | some rest => some (d, rest)
    | none => do
      let ((key, v), rest) ← readPair readValue cs
      return (← d.assign? key v, ← lineEnd? rest)

/-- Reads all lines. Each takes one of `fuel`, and all but the last at least one
character. -/
def readLines : Nat → Document → List Char → Option Document
  | 0, _, _ => none
  | fuel + 1, d, cs =>
    match skipBlanks cs with
    | [] => some d
    | cs =>
      match d.readLine cs with
      | some (d, rest) => readLines fuel d rest
      | none => none

/-- The tables of a whole text. A byte order mark may stand in front of it. -/
def parse? (text : String) : Option Entries :=
  let cs := match text.toList with
    | '\ufeff' :: rest => rest
    | cs => cs
  (readLines (cs.length + 1) start cs).bind close?

end Document

end FlatXor.Toml
