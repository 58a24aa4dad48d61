import FlatXor.CodeTable
import FlatXor.Json.Skip

/-!
# Tables as JSON records

A table is written as one object with six members. The columns are numbers. The
rows, which can be wider than a word, are strings of decimal digits. Reading takes
the members in any order, each of them exactly once, and passes over members that
it does not know. It also takes an array of the six values in order.
-/
namespace FlatXor

structure TableRecord where
  name : String
  /-- The number of data elements. -/
  size : Nat
  parities : Nat
  hammingDistance : Nat
  columns : List UInt64
  /-- The rows in decimal. -/
  rows : List String
  deriving Repr, DecidableEq

namespace TableRecord

def ofTable (table : CodeTable) : TableRecord where
  name := table.name
  size := table.size
  parities := table.params.parities
  hammingDistance := table.params.hammingDistance
  columns := table.columns.map ParitySet.bits
  rows := table.rows.map DataSet.toDecimal

/-- The members of a record, in the order in which they are written. -/
inductive Key where
  | name
  | size
  | parities
  | hammingDistance
  | columns
  | rows
  deriving Repr, DecidableEq

namespace Key

def all : List Key := [name, size, parities, hammingDistance, columns, rows]

def label : Key → String
  | name => "name"
  | size => "k"
  | parities => "m"
  | hammingDistance => "hd"
  | columns => "data_bms"
  | rows => "parity_bms"

def ofLabel? (s : String) : Option Key := all.find? fun key => key.label == s

end Key

def jsonArray (items : List String) : String := "[" ++ ",".intercalate items ++ "]"

/-- The written value of a member. -/
def value (r : TableRecord) : Key → String
  | .name => Json.encode r.name
  | .size => Nat.repr r.size
  | .parities => Nat.repr r.parities
  | .hammingDistance => Nat.repr r.hammingDistance
  | .columns => jsonArray (r.columns.map fun w => Nat.repr w.toNat)
  | .rows => jsonArray (r.rows.map Json.encode)

/-- The record as one object without blanks or line ends. -/
def render (r : TableRecord) : String :=
  "\x7b" ++ ",".intercalate (Key.all.map fun key => Json.encode key.label ++ ":" ++ r.value key) ++
    "\x7d"

/-- The members that have been read so far. -/
structure Draft where
  name : Option String
  size : Option Nat
  parities : Option Nat
  hammingDistance : Option Nat
  columns : Option (List UInt64)
  rows : Option (List String)
  deriving Repr, DecidableEq

namespace Draft

def empty : Draft := ⟨none, none, none, none, none, none⟩

/-- The record, when no member is missing. -/
def finish (d : Draft) : Option TableRecord := do
  return ⟨← d.name, ← d.size, ← d.parities, ← d.hammingDistance, ← d.columns, ← d.rows⟩

def has (d : Draft) : Key → Bool
  | .name => d.name.isSome
  | .size => d.size.isSome
  | .parities => d.parities.isSome
  | .hammingDistance => d.hammingDistance.isSome
  | .columns => d.columns.isSome
  | .rows => d.rows.isSome

/-- Reads the value of a member. -/
def readMember (d : Draft) : Key → Reader Draft
  | .name, cs => (Json.readString cs).map fun (v, rest) => ({ d with name := some v }, rest)
  | .size, cs => (Json.readWord cs).map fun (v, rest) => ({ d with size := some v }, rest)
  | .parities, cs => (Json.readWord cs).map fun (v, rest) => ({ d with parities := some v }, rest)
  | .hammingDistance, cs =>
    (Json.readWord cs).map fun (v, rest) => ({ d with hammingDistance := some v }, rest)
  | .columns, cs =>
    (Json.readArray Json.readWord cs).map fun (v, rest) =>
      ({ d with columns := some (v.map UInt64.ofNat) }, rest)
  | .rows, cs =>
    (Json.readArray Json.readString cs).map fun (v, rest) => ({ d with rows := some v }, rest)

/-- Reads a key with its value. A member that the draft has already is refused, and
one that is unknown is passed over. -/
def readPair (d : Draft) : Reader Draft := fun cs => do
  let (label, cs) ← Json.readString cs
  let cs ← Json.expect ':' cs
  match Key.ofLabel? label with
  | some key => if d.has key then none else d.readMember key cs
  | none => return (d, ← Json.skipValue cs)

/-- Reads the members of an object after its first brace or comma. Each takes one of
`fuel`. -/
def readPairs : Nat → Draft → Reader Draft
  | 0, _, _ => none
  | fuel + 1, d, cs =>
    match d.readPair cs with
    | none => none
    | some (d, cs) =>
      match Json.skipBlanks cs with
      | ',' :: rest => readPairs fuel d rest
      | '\x7d' :: rest => some (d, rest)
      | _ => none

/-- Reads the values of the given members, separated by commas, and the bracket that
closes the array. -/
def readValues (d : Draft) : List Key → Reader Draft
  | [], cs => (Json.expect ']' cs).map (d, ·)
  | [key], cs => do
    let (d, cs) ← d.readMember key cs
    return (d, ← Json.expect ']' cs)
  | key :: keys, cs => do
    let (d, cs) ← d.readMember key cs
    readValues d keys (← Json.expect ',' cs)

end Draft

/-- Reads a record. -/
def read : Reader TableRecord := fun cs => do
  let (d, rest) ←
    match Json.skipBlanks cs with
    | '\x7b' :: rest => Draft.empty.readPairs rest.length rest
    | '[' :: rest => Draft.empty.readValues Key.all rest
    | _ => none
  return (← d.finish, rest)

/-- The record that a text holds, with nothing but blanks around it. -/
def parse? (text : String) : Option TableRecord := do
  let (r, rest) ← read text.toList
  if (Json.skipBlanks rest).isEmpty then some r else none

end TableRecord

end FlatXor
