/-!
# Readers

The readers of the text formats share one shape, the values of digits, and the steps
over single characters and runs of digits.
-/
namespace FlatXor

/-- A reader takes the text that is left and answers what it has read with the text
after it, or nothing when the text does not start with such a value. -/
abbrev Reader (α : Type) : Type := List Char → Option (α × List Char)

/-- The text after the given character. -/
def takeChar (token : Char) : List Char → Option (List Char)
  | c :: rest => if c = token then some rest else none
  | [] => none

/-- The text after one or more digits. -/
def skipDigits : List Char → Option (List Char)
  | c :: rest => if c.isDigit then some (rest.dropWhile Char.isDigit) else none
  | [] => none

/-- The value of a hexadecimal digit. -/
def hexValue? (c : Char) : Option Nat :=
  if '0' ≤ c ∧ c ≤ '9' then some (c.toNat - '0'.toNat)
  else if 'a' ≤ c ∧ c ≤ 'f' then some (c.toNat - 'a'.toNat + 10)
  else if 'A' ≤ c ∧ c ≤ 'F' then some (c.toNat - 'A'.toNat + 10)
  else none

/-- The number with the given hexadecimal digits, the first being the highest. -/
def hexNumber? (digits : List Char) : Option Nat :=
  digits.foldlM (fun n c => (hexValue? c).map (16 * n + ·)) 0

/-- The value of decimal digits, the first being the highest. -/
def decimalValue (digits : List Char) : Nat := Nat.ofDigitChars 10 digits 0

/-- The number that decimal digits denote, when nothing else is in the text. -/
def decimalNumber? (digits : List Char) : Option Nat :=
  if digits.isEmpty || !digits.all Char.isDigit then none else some (decimalValue digits)

end FlatXor
