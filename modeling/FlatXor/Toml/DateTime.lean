import FlatXor.Reader

/-!
# Dates and times of TOML

There are dates, times of day, and both together with or without an offset from
universal time. They are checked but not kept: nothing here computes with them.
-/
namespace FlatXor.Toml

/-- Reads a number of exactly `width` digits that lies between two bounds. -/
def readFixed (width low high : Nat) : Reader Nat := fun cs =>
  if cs.length < width then none
  else
    match decimalNumber? (cs.take width) with
    | some n => if low ≤ n ∧ n ≤ high then some (n, cs.drop width) else none
    | none => none

def isLeapYear (year : Nat) : Bool := year % 4 == 0 && (year % 100 != 0 || year % 400 == 0)

def daysInMonth (year month : Nat) : Nat :=
  if month == 2 then (if isLeapYear year then 29 else 28)
  else if month == 4 || month == 6 || month == 9 || month == 11 then 30
  else 31

/-- The text after a date. -/
def skipDate (cs : List Char) : Option (List Char) := do
  let (year, cs) ← readFixed 4 0 9999 cs
  let (month, cs) ← readFixed 2 1 12 (← takeChar '-' cs)
  let (_, cs) ← readFixed 2 1 (daysInMonth year month) (← takeChar '-' cs)
  return cs

/-- The text after a time of day. A minute may have a leap second, and a second a
fraction. -/
def skipTime (cs : List Char) : Option (List Char) := do
  let (_, cs) ← readFixed 2 0 23 cs
  let (_, cs) ← readFixed 2 0 59 (← takeChar ':' cs)
  let (_, cs) ← readFixed 2 0 60 (← takeChar ':' cs)
  match cs with
  | '.' :: rest => skipDigits rest
  | cs => some cs

/-- The text after the hours and minutes of an offset. -/
def skipOffsetTime (cs : List Char) : Option (List Char) := do
  let (_, cs) ← readFixed 2 0 23 cs
  let (_, cs) ← readFixed 2 0 59 (← takeChar ':' cs)
  return cs

/-- The text after an offset, if there is one. -/
def skipOffset : List Char → Option (List Char)
  | 'Z' :: rest => some rest
  | 'z' :: rest => some rest
  | '+' :: rest => skipOffsetTime rest
  | '-' :: rest => skipOffsetTime rest
  | cs => some cs

/-- The text after the time that follows a date, if there is one. It stands behind a
letter, or behind a blank when that has a digit after it. -/
def skipTimeOfDate : List Char → Option (List Char)
  | 'T' :: rest => (skipTime rest).bind skipOffset
  | 't' :: rest => (skipTime rest).bind skipOffset
  | ' ' :: c :: rest =>
    if c.isDigit then (skipTime (c :: rest)).bind skipOffset else some (' ' :: c :: rest)
  | cs => some cs

/-- Does the text start like a date, with four digits and a hyphen? -/
def startsDate (cs : List Char) : Bool :=
  4 < cs.length && (cs.take 4).all Char.isDigit && cs[4]? == some '-'

/-- Does the text start like a time, with two digits and a colon? -/
def startsTime (cs : List Char) : Bool :=
  2 < cs.length && (cs.take 2).all Char.isDigit && cs[2]? == some ':'

/-- The text after a date or a time of day. -/
def skipDateTime (cs : List Char) : Option (List Char) :=
  if startsDate cs then (skipDate cs).bind skipTimeOfDate else skipTime cs

end FlatXor.Toml
