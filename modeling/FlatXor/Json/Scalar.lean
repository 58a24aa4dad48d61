import FlatXor.Json.Text

/-!
# The leaves of JSON

Blanks may stand in front of every token. What is read here is what a record
consists of: strings, numbers that fit a word, and arrays of them.
-/
namespace FlatXor.Json

def isBlank (c : Char) : Bool := c == ' ' || c == '\t' || c == '\n' || c == '\r'

def skipBlanks (cs : List Char) : List Char := cs.dropWhile isBlank

/-- The text after `token`, which may have blanks in front. -/
def expect (token : Char) (cs : List Char) : Option (List Char) := takeChar token (skipBlanks cs)

/-- Reads a number without sign, fraction and exponent that is below `2 ^ 64`. Only
zero itself starts with a zero. -/
def readWord : Reader Nat := fun cs =>
  let cs := skipBlanks cs
  let digits := cs.takeWhile Char.isDigit
  let rest := cs.dropWhile Char.isDigit
  if digits.isEmpty || (digits.head? == some '0' && 1 < digits.length) then none
  else
    match rest with
    | '.' :: _ => none
    | 'e' :: _ => none
    | 'E' :: _ => none
    | _ =>
      if decimalValue digits < UInt64.size then some (decimalValue digits, rest) else none

/-- Reads a string. -/
def readString : Reader String := fun cs => do
  let cs ← expect '"' cs
  let (parts, rest) ← scan cs
  let s ← decode parts
  return (s, rest)

/-- Reads the items of an array after its first bracket or comma, behind those that
`acc` holds in reverse. Each item takes one of `fuel`. -/
def readItems {α : Type} (item : Reader α) : Nat → List α → Reader (List α)
  | 0, _, _ => none
  | fuel + 1, acc, cs =>
    match item cs with
    | none => none
    | some (a, cs) =>
      match skipBlanks cs with
      | ',' :: rest => readItems item fuel (a :: acc) rest
      | ']' :: rest => some ((a :: acc).reverse, rest)
      | _ => none

/-- Reads an array. It has no more items than characters. -/
def readArray {α : Type} (item : Reader α) : Reader (List α) := fun cs => do
  let cs ← expect '[' cs
  match skipBlanks cs with
  | ']' :: rest => some ([], rest)
  | cs => readItems item cs.length [] cs

def skipFraction : List Char → Option (List Char)
  | '.' :: rest => skipDigits rest
  | cs => some cs

def skipSign : List Char → List Char
  | '+' :: rest => rest
  | '-' :: rest => rest
  | cs => cs

def skipExponent : List Char → Option (List Char)
  | 'e' :: rest => skipDigits (skipSign rest)
  | 'E' :: rest => skipDigits (skipSign rest)
  | cs => some cs

/-- The text after an integer part, in which only zero itself starts with a zero. -/
def skipWhole : List Char → Option (List Char)
  | '0' :: rest =>
    match rest with
    | c :: _ => if c.isDigit then none else some rest
    | [] => some rest
  | cs => skipDigits cs

/-- The text after a number of any size. -/
def skipNumber (cs : List Char) : Option (List Char) := do
  let cs := if cs.head? = some '-' then cs.drop 1 else cs
  skipExponent (← skipFraction (← skipWhole cs))

/-- The text after the given word. -/
def skipLiteral (word : String) (cs : List Char) : Option (List Char) :=
  if word.toList.isPrefixOf cs then some (cs.drop word.length) else none

/-- The text after a string, without its first quote, whose surrogates need not be
paired. -/
def skipString (cs : List Char) : Option (List Char) := (scan cs).map (·.2)

end FlatXor.Json
