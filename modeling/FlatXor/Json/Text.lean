import FlatXor.Reader

/-!
# Strings of JSON

A string is written between quotes. Quotes, backslashes and control characters
are escaped, and every other character stands for itself. Reading goes in two
passes: `scan` splits the text up to the closing quote into characters and UTF-16
units, and `decode` joins pairs of surrogate units. A reader that has no use for a
string only scans it, so that a surrogate without its partner is an error just
where the string is needed.
-/
namespace FlatXor.Json

def hexDigits : List Char := "0123456789abcdef".toList

/-- The character that a letter after a backslash stands for. -/
def unescape? : Char → Option Char
  | '"' => some '"'
  | '\\' => some '\\'
  | '/' => some '/'
  | 'b' => some '\x08'
  | 'f' => some '\x0c'
  | 'n' => some '\n'
  | 'r' => some '\r'
  | 't' => some '\t'
  | _ => none

/-- The written form of a character inside a string. -/
def escape (c : Char) : List Char :=
  match c with
  | '"' => ['\\', '"']
  | '\\' => ['\\', '\\']
  | '\x08' => ['\\', 'b']
  | '\x0c' => ['\\', 'f']
  | '\n' => ['\\', 'n']
  | '\r' => ['\\', 'r']
  | '\t' => ['\\', 't']
  | c =>
    if c < ' ' then
      ['\\', 'u', '0', '0', hexDigits.getD (c.toNat / 16) '0', hexDigits.getD (c.toNat % 16) '0']
    else [c]

def encode (s : String) : String := "\"" ++ String.ofList (s.toList.flatMap escape) ++ "\""

/-- A part of a string as it is written. -/
inductive StringPart where
  | char (c : Char)
  /-- A UTF-16 unit, given by four hexadecimal digits. -/
  | unit (value : Nat)
  deriving Repr, DecidableEq

/-- Splits the text after an opening quote. Answers the parts up to the closing
quote, behind those that `acc` holds in reverse, and the text after that quote. -/
def scanOnto (acc : List StringPart) : List Char → Option (List StringPart × List Char)
  | [] => none
  | '"' :: rest => some (acc.reverse, rest)
  | '\\' :: 'u' :: a :: b :: c :: d :: rest =>
    match hexNumber? [a, b, c, d] with
    | some value => scanOnto (.unit value :: acc) rest
    | none => none
  | '\\' :: e :: rest =>
    match unescape? e with
    | some c => scanOnto (.char c :: acc) rest
    | none => none
  | c :: rest => if c < ' ' then none else scanOnto (.char c :: acc) rest

/-- Splits the text after an opening quote into the parts of the string and the
text after the closing quote. -/
def scan (cs : List Char) : Option (List StringPart × List Char) := scanOnto [] cs

def isHighSurrogate (value : Nat) : Bool := 0xD800 ≤ value && value < 0xDC00

def isLowSurrogate (value : Nat) : Bool := 0xDC00 ≤ value && value < 0xE000

/-- The character of a surrogate pair. -/
def joinSurrogates (high low : Nat) : Char :=
  Char.ofNat (0x10000 + (high - 0xD800) * 0x400 + (low - 0xDC00))

/-- Joins the parts, behind the characters that `acc` holds in reverse. -/
def decodeOnto (acc : List Char) : List StringPart → Option (List Char)
  | [] => some acc.reverse
  | .char c :: parts => decodeOnto (c :: acc) parts
  | .unit high :: .unit low :: parts =>
    if isHighSurrogate high then
      if isLowSurrogate low then decodeOnto (joinSurrogates high low :: acc) parts else none
    else if isLowSurrogate high then none
    else decodeOnto (Char.ofNat high :: acc) (.unit low :: parts)
  | .unit value :: parts =>
    if isHighSurrogate value || isLowSurrogate value then none
    else decodeOnto (Char.ofNat value :: acc) parts

/-- The string that the parts make up. There is none when a surrogate stands alone. -/
def decode (parts : List StringPart) : Option String :=
  (decodeOnto [] parts).map String.ofList

end FlatXor.Json
