import FlatXor.Json.Scalar

/-!
# Passing over a value

A member that a reader does not know is passed over, but it has to be well formed.
The brackets that are still open are kept in a stack, so the nesting may be as deep
as the text allows.
-/
namespace FlatXor.Json

/-- A bracket that is still open. -/
inductive Bracket where
  | array
  | object
  deriving Repr, DecidableEq

/-- What may come next. -/
inductive Expected where
  /-- A value; in an object, a key and its value. -/
  | value
  /-- The same, or the bracket that closes what has just been opened. -/
  | valueOrClose
  /-- A comma or the closing bracket, or the end when no bracket is open. -/
  | separator
  deriving Repr, DecidableEq

namespace Bracket

def closing : Bracket → Char
  | array => ']'
  | object => '\x7d'

end Bracket

/-- The text after the key and the colon of a member. In an array there is no key. -/
def skipKey (opened : List Bracket) (cs : List Char) : Option (List Char) :=
  match opened with
  | .object :: _ => do expect ':' (← skipString (← expect '"' cs))
  | _ => some cs

/-- Passes over a scalar, or over the bracket that opens an array or an object. -/
def skipToken (opened : List Bracket) (cs : List Char) :
    Option (Expected × List Bracket × List Char) :=
  match skipBlanks cs with
  | '[' :: rest => some (.valueOrClose, .array :: opened, rest)
  | '\x7b' :: rest => some (.valueOrClose, .object :: opened, rest)
  | '"' :: rest => (skipString rest).map (.separator, opened, ·)
  | 'n' :: rest => (skipLiteral "ull" rest).map (.separator, opened, ·)
  | 't' :: rest => (skipLiteral "rue" rest).map (.separator, opened, ·)
  | 'f' :: rest => (skipLiteral "alse" rest).map (.separator, opened, ·)
  | cs => (skipNumber cs).map (.separator, opened, ·)

/-- Passes over the bracket that closes the innermost open one. -/
def skipClose (opened : List Bracket) (cs : List Char) : Option (List Bracket × List Char) :=
  match opened with
  | [] => none
  | b :: opened => (expect b.closing cs).map (opened, ·)

/-- Passes over the rest of a value, given what is open and what may come next. Each
round takes one of `fuel`, and at least one character. -/
def skipFrom : Nat → Expected → List Bracket → List Char → Option (List Char)
  | 0, _, _, _ => none
  | fuel + 1, .value, opened, cs => do
    let (expected, opened, rest) ← skipToken opened (← skipKey opened cs)
    skipFrom fuel expected opened rest
  | fuel + 1, .valueOrClose, opened, cs =>
    match skipClose opened cs with
    | some (opened, rest) => skipFrom fuel .separator opened rest
    | none => do
      let (expected, opened, rest) ← skipToken opened (← skipKey opened cs)
      skipFrom fuel expected opened rest
  | _ + 1, .separator, [], cs => some cs
  | fuel + 1, .separator, opened, cs =>
    match skipClose opened cs with
    | some (opened, rest) => skipFrom fuel .separator opened rest
    | none => do skipFrom fuel .value opened (← expect ',' cs)

/-- The text after a value of any kind. -/
def skipValue (cs : List Char) : Option (List Char) := skipFrom (cs.length + 2) .value [] cs

end FlatXor.Json
