import FlatXor.Reader

/-!
# Lines, strings and keys of TOML

A line ends with a line feed, which may have a carriage return in front. Comments
and strings hold no control characters but the tab. A string stands between quotes
and ends on its own line, or between triple quotes and spans lines; in double
quotes there are escapes, in single quotes there are none.
-/
namespace FlatXor.Toml

def isBlank (c : Char) : Bool := c == ' ' || c == '\t'

def skipBlanks (cs : List Char) : List Char := cs.dropWhile isBlank

/-- May the character stand in a comment or, escapes aside, in a string? -/
def isTextChar (c : Char) : Bool := c == '\t' || (' ' ≤ c && c != '\x7f')

/-- The text after a line end. -/
def newline? : List Char → Option (List Char)
  | '\n' :: rest => some rest
  | '\r' :: '\n' :: rest => some rest
  | _ => none

/-- The text after a comment, if there is one, up to the end of the line. -/
def skipComment : List Char → List Char
  | '#' :: rest => rest.dropWhile isTextChar
  | cs => cs

/-- The text after the rest of a line, which may hold a comment and nothing else. -/
def lineEnd? (cs : List Char) : Option (List Char) :=
  match skipComment (skipBlanks cs) with
  | [] => some []
  | cs => newline? cs

/-- Passes over blanks, comments and line ends. Each round takes one of `fuel`. -/
def skipLinesFrom : Nat → List Char → Option (List Char)
  | 0, _ => none
  | fuel + 1, cs =>
    match skipBlanks cs with
    | '#' :: rest => (newline? (rest.dropWhile isTextChar)).bind (skipLinesFrom fuel)
    | cs =>
      match newline? cs with
      | some rest => skipLinesFrom fuel rest
      | none => some cs

/-- The text after blanks, comments and line ends. A comment has to end with its
line. -/
def skipLines (cs : List Char) : Option (List Char) := skipLinesFrom (cs.length + 1) cs

/-- The character with the given hexadecimal number. Surrogates are not characters. -/
def charOfHex? (digits : List Char) : Option Char :=
  (hexNumber? digits).bind fun n => if h : n.isValidChar then some (Char.ofNatAux n h) else none

/-- Reads an escape after its backslash. -/
def readEscape : Reader Char
  | 'b' :: rest => some ('\x08', rest)
  | 't' :: rest => some ('\t', rest)
  | 'n' :: rest => some ('\n', rest)
  | 'f' :: rest => some ('\x0c', rest)
  | 'r' :: rest => some ('\r', rest)
  | '"' :: rest => some ('"', rest)
  | '\\' :: rest => some ('\\', rest)
  | 'u' :: rest =>
    if rest.length < 4 then none else (charOfHex? (rest.take 4)).map (·, rest.drop 4)
  | 'U' :: rest =>
    if rest.length < 8 then none else (charOfHex? (rest.take 8)).map (·, rest.drop 8)
  | _ => none

/-- Reads a string after its double quote, behind the characters that `acc` holds in
reverse. Each character takes one of `fuel`. -/
def readBasicFrom : Nat → List Char → Reader String
  | 0, _, _ => none
  | _ + 1, _, [] => none
  | _ + 1, acc, '"' :: rest => some (String.ofList acc.reverse, rest)
  | fuel + 1, acc, '\\' :: rest =>
    match readEscape rest with
    | some (c, rest) => readBasicFrom fuel (c :: acc) rest
    | none => none
  | fuel + 1, acc, c :: rest =>
    if isTextChar c then readBasicFrom fuel (c :: acc) rest else none

/-- Reads a string after its double quote. -/
def readBasic : Reader String := fun cs => readBasicFrom (cs.length + 1) [] cs

/-- Reads a string after its single quote. -/
def readLiteral : Reader String := fun cs =>
  let (text, rest) := cs.span fun c => isTextChar c && c != '\''
  match rest with
  | '\'' :: rest => some (String.ofList text, rest)
  | _ => none

/-- Ends a text between triple quotes, after the first three of the quotes at its end.
Up to two quotes more belong to the text. -/
def closeLines (quote : Char) (acc rest : List Char) : String × List Char :=
  let extra := (rest.take 2).takeWhile (· == quote)
  (String.ofList (acc.reverse ++ extra), rest.drop extra.length)

/-- Passes over the blanks and line ends at the front. Each round takes one of `fuel`. -/
def skipEmptyLines : Nat → List Char → List Char
  | 0, cs => cs
  | fuel + 1, cs =>
    match newline? (skipBlanks cs) with
    | some rest => skipEmptyLines fuel rest
    | none => skipBlanks cs

/-- The text after the blanks and the line end that follow a backslash, and after all
the blanks and line ends behind them. -/
def lineContinuation? (cs : List Char) : Option (List Char) :=
  (newline? (skipBlanks cs)).map fun rest => skipEmptyLines (rest.length + 1) rest

/-- Reads a text after its three double quotes, behind the characters that `acc` holds
in reverse. Each round takes one of `fuel`. -/
def readBasicLinesFrom : Nat → List Char → Reader String
  | 0, _, _ => none
  | _ + 1, _, [] => none
  | _ + 1, acc, '"' :: '"' :: '"' :: rest => some (closeLines '"' acc rest)
  | fuel + 1, acc, '\\' :: rest =>
    match lineContinuation? rest with
    | some rest => readBasicLinesFrom fuel acc rest
    | none =>
      match readEscape rest with
      | some (c, rest) => readBasicLinesFrom fuel (c :: acc) rest
      | none => none
  | fuel + 1, acc, c :: rest =>
    match newline? (c :: rest) with
    | some rest => readBasicLinesFrom fuel ('\n' :: acc) rest
    | none => if isTextChar c then readBasicLinesFrom fuel (c :: acc) rest else none

/-- Reads a text after its three single quotes, behind the characters that `acc` holds
in reverse. Each round takes one of `fuel`. -/
def readLiteralLinesFrom : Nat → List Char → Reader String
  | 0, _, _ => none
  | _ + 1, _, [] => none
  | _ + 1, acc, '\'' :: '\'' :: '\'' :: rest => some (closeLines '\'' acc rest)
  | fuel + 1, acc, c :: rest =>
    match newline? (c :: rest) with
    | some rest => readLiteralLinesFrom fuel ('\n' :: acc) rest
    | none => if isTextChar c then readLiteralLinesFrom fuel (c :: acc) rest else none

/-- A line end directly after three quotes is not part of the text. -/
def dropFirstNewline (cs : List Char) : List Char := (newline? cs).getD cs

/-- Reads a string of any kind. -/
def readString : Reader String
  | '"' :: '"' :: '"' :: rest => readBasicLinesFrom (rest.length + 1) [] (dropFirstNewline rest)
  | '"' :: rest => readBasic rest
  | '\'' :: '\'' :: '\'' :: rest =>
    readLiteralLinesFrom (rest.length + 1) [] (dropFirstNewline rest)
  | '\'' :: rest => readLiteral rest
  | _ => none

def isBareKeyChar (c : Char) : Bool := c.isAlphanum || c == '_' || c == '-'

/-- Reads one part of a key. -/
def readKeyPart : Reader String
  | '"' :: rest => readBasic rest
  | '\'' :: rest => readLiteral rest
  | cs =>
    let (text, rest) := cs.span isBareKeyChar
    if text.isEmpty then none else some (String.ofList text, rest)

/-- The number of parts from which a key is refused. -/
def keyLimit : Nat := 80

/-- Reads the parts of a key, separated by dots, with the blanks around each of them.
Each part takes one of `fuel`. -/
def readKeyFrom : Nat → List String → Reader (List String)
  | 0, _, _ => none
  | fuel + 1, acc, cs =>
    match readKeyPart (skipBlanks cs) with
    | none => none
    | some (part, rest) =>
      match skipBlanks rest with
      | '.' :: rest => readKeyFrom fuel (part :: acc) rest
      | rest => some ((part :: acc).reverse, rest)

/-- Reads a key of fewer than `keyLimit` parts. -/
def readKey : Reader (List String) := readKeyFrom (keyLimit - 1) []

end FlatXor.Toml
