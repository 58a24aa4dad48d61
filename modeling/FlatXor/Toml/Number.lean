import FlatXor.Reader

/-!
# Numbers of TOML

Digits may have single underscores between them. Integers are decimal with an
optional sign, or without a sign in base 16, 8 or 2, and lie in the range of 64-bit
signed words. Floating-point numbers are checked but their values are not kept. One
of them is refused when its value would be rounded to positive infinity.
-/
namespace FlatXor.Toml

/-- Splits off digits, with single underscores between them, behind those that `acc`
holds in reverse. The underscores are left out. -/
def digitsOnto (isDigit : Char → Bool) (acc : List Char) : List Char → List Char × List Char
  | [] => (acc.reverse, [])
  | c :: rest =>
    if isDigit c then digitsOnto isDigit (c :: acc) rest
    else if c = '_' ∧ !acc.isEmpty ∧ (rest.head?.any isDigit) then digitsOnto isDigit acc rest
    else (acc.reverse, c :: rest)

/-- Reads one or more digits. -/
def readDigits (isDigit : Char → Bool) : Reader (List Char) := fun cs =>
  let (digits, rest) := digitsOnto isDigit [] cs
  if digits.isEmpty then none else some (digits, rest)

/-- Reads digits of which only a single one may be zero at the start. -/
def readWhole : Reader (List Char) := fun cs =>
  match readDigits Char.isDigit cs with
  | some ('0' :: _ :: _, _) => none
  | r => r

/-- The largest integer. -/
def maxInteger : Nat := (1 <<< 63) - 1

/-- The integer with the given sign and absolute value, when it is in range. -/
def integer? (negative : Bool) (value : Nat) : Option Int :=
  if negative then (if value ≤ maxInteger + 1 then some (-Int.ofNat value) else none)
  else (if value ≤ maxInteger then some (Int.ofNat value) else none)

def isOctalDigit (c : Char) : Bool := '0' ≤ c && c ≤ '7'

def isBinaryDigit (c : Char) : Bool := c == '0' || c == '1'

def isHexDigit (c : Char) : Bool := (hexValue? c).isSome

/-- Reads an integer in another base after its first two characters. -/
def readInBase (base : Nat) (isDigit : Char → Bool) : Reader Int := fun cs => do
  let (digits, rest) ← readDigits isDigit cs
  let value := digits.foldl (fun n c => base * n + (hexValue? c).getD 0) 0
  return (← integer? false value, rest)

/-- Takes a sign from the front: whether it is a minus, and the text after it. -/
def takeSign : List Char → Bool × List Char
  | '-' :: rest => (true, rest)
  | '+' :: rest => (false, rest)
  | cs => (false, cs)

/-- From this number on a positive value is rounded to infinity. It lies halfway
between the largest finite value and the next power of two. -/
def roundsToInfinity : Nat := (1 <<< 1024) - (1 <<< 970)

/-- Is `mantissa * 10 ^ exponent` rounded to infinity? Numbers that are far from the
bound are told by their length. -/
def overflows (mantissa : Nat) (exponent : Int) : Bool :=
  if mantissa == 0 then false
  else
    let magnitude := (Nat.toDigits 10 mantissa).length + exponent
    if magnitude < 300 then false
    else if 320 < magnitude then true
    else if 0 ≤ exponent then roundsToInfinity ≤ mantissa * Nat.pow 10 exponent.toNat
    else roundsToInfinity * Nat.pow 10 (-exponent).toNat ≤ mantissa

/-- Reads an exponent, if there is one, and 0 otherwise. -/
def readExponent : Reader Int
  | 'e' :: rest => read rest
  | 'E' :: rest => read rest
  | cs => some (0, cs)
where
  read (cs : List Char) : Option (Int × List Char) := do
    let (negative, cs) := takeSign cs
    let (digits, rest) ← readDigits Char.isDigit cs
    let value := Int.ofNat (decimalValue digits)
    return (if negative then -value else value, rest)

/-- Reads the digits of a fraction, if there is one. -/
def readFraction : Reader (List Char)
  | '.' :: rest => readDigits Char.isDigit rest
  | cs => some ([], cs)

/-- A number as far as it is kept. -/
inductive Number where
  | integer (value : Int)
  | float
  deriving Repr, DecidableEq

/-- Reads a decimal number, which is an integer when it has neither fraction nor
exponent. -/
def readDecimal : Reader Number := fun cs => do
  let (negative, cs) := takeSign cs
  let (whole, afterWhole) ← readWhole cs
  let (fraction, afterFraction) ← readFraction afterWhole
  let (exponent, rest) ← readExponent afterFraction
  if rest.length = afterWhole.length then
    return (.integer (← integer? negative (decimalValue whole)), rest)
  else if !negative && overflows (decimalValue (whole ++ fraction)) (exponent - fraction.length) then
    none
  else return (.float, rest)

/-- Reads a number of any kind. -/
def readNumber : Reader Number
  | '0' :: 'x' :: rest => (readInBase 16 isHexDigit rest).map fun (n, rest) => (.integer n, rest)
  | '0' :: 'o' :: rest => (readInBase 8 isOctalDigit rest).map fun (n, rest) => (.integer n, rest)
  | '0' :: 'b' :: rest => (readInBase 2 isBinaryDigit rest).map fun (n, rest) => (.integer n, rest)
  | cs =>
    match (takeSign cs).2 with
    | 'i' :: 'n' :: 'f' :: rest => some (.float, rest)
    | 'n' :: 'a' :: 'n' :: rest => some (.float, rest)
    | _ => readDecimal cs

end FlatXor.Toml
