import FlatXor.Toml.DateTime
import FlatXor.Toml.Number
import FlatXor.Toml.Text
import FlatXor.Toml.Value

/-!
# Values as they are written

A value stands behind the equals sign of a line. Arrays may span lines and hold
comments, inline tables may not. Both can be nested, but only to a fixed depth.
-/
namespace FlatXor.Toml

/-- The number of arrays and inline tables that may be open at the same time. -/
def nestingLimit : Nat := 79

/-- Reads the items of an array after its bracket or a comma, behind those that `acc`
holds in reverse. A comma may follow the last item. Each item takes one of `fuel`. -/
def readItems (item : Reader Value) : Nat → List Value → Reader (List Value)
  | 0, _, _ => none
  | fuel + 1, acc, cs =>
    match skipLines cs with
    | none => none
    | some (']' :: rest) => some (acc.reverse, rest)
    | some cs =>
      match item cs with
      | none => none
      | some (v, cs) =>
        match skipLines cs with
        | some (',' :: rest) => readItems item fuel (v :: acc) rest
        | some (']' :: rest) => some ((v :: acc).reverse, rest)
        | _ => none

/-- Reads a key, the equals sign and a value, with the blanks around them. -/
def readPair (item : Reader Value) : Reader (List String × Value) := fun cs => do
  let (key, cs) ← readKey cs
  let cs ← takeChar '=' cs
  let (v, cs) ← item (skipBlanks cs)
  return ((key, v), skipBlanks cs)

/-- Adds the value of a key that has at least one part. -/
def assignKey? (entries : Entries) (key : List String) (v : Value) : Option Entries :=
  key.getLast?.bind fun last => entries.assign? key.dropLast last v

/-- Reads the pairs of an inline table after its brace or a comma, into the entries
made so far. Each pair takes one of `fuel`. -/
def readEntries (item : Reader Value) : Nat → Entries → Reader Entries
  | 0, _, _ => none
  | fuel + 1, entries, cs =>
    match readPair item cs with
    | none => none
    | some ((key, v), cs) =>
      match assignKey? entries key v, cs with
      | some entries, ',' :: rest => readEntries item fuel entries rest
      | some entries, '\x7d' :: rest => some (entries, rest)
      | _, _ => none

/-- Reads a value that is neither an array nor an inline table. -/
def readScalar : Reader Value
  | '"' :: rest => (readString ('"' :: rest)).map fun (s, rest) => (.string s, rest)
  | '\'' :: rest => (readString ('\'' :: rest)).map fun (s, rest) => (.string s, rest)
  | 't' :: 'r' :: 'u' :: 'e' :: rest => some (.boolean true, rest)
  | 'f' :: 'a' :: 'l' :: 's' :: 'e' :: rest => some (.boolean false, rest)
  | cs =>
    if startsDate cs || startsTime cs then (skipDateTime cs).map (.dateTime, ·)
    else
      match readNumber cs with
      | some (.integer n, rest) => some (.integer n, rest)
      | some (.float, rest) => some (.float, rest)
      | none => none

/-- Reads a value in which at most `nesting` arrays and inline tables are open. -/
def readValueWithin : Nat → Reader Value
  | 0, cs =>
    match cs with
    | '[' :: _ => none
    | '\x7b' :: _ => none
    | cs => readScalar cs
  | nesting + 1, cs =>
    match cs with
    | '[' :: rest =>
      (readItems (readValueWithin nesting) (rest.length + 1) [] rest).map fun (items, rest) =>
        (.array items, rest)
    | '\x7b' :: rest =>
      match skipBlanks rest with
      | '\x7d' :: rest => some (.table .inline [], rest)
      | rest =>
        (readEntries (readValueWithin nesting) (rest.length + 1) [] rest).map
          fun (entries, rest) => (.table .inline entries, rest)
    | cs => readScalar cs

def readValue : Reader Value := readValueWithin nestingLimit

end FlatXor.Toml
