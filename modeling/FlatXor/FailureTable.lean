import FlatXor.CodeParams
import FlatXor.Sink

/-!
# Failure tables

A test of a decoder walks through patterns of lost fragments: all sets of at most
`depth` fragments, the smaller sets first, and sets of one size in lexicographic
order. In the table every pattern is a row of the same width, filled up with -1.
The rows are also written one after the other, from streams of patterns that run to
their end, and counted before and after.
-/
namespace FlatXor

structure FailureTable where
  fragments : Nat
  /-- The largest number of fragments that are lost together. -/
  depth : Nat
  fragments_range : 0 < fragments ∧ fragments ≤ maxFragments
  depth_range : 0 < depth ∧ depth ≤ failureWidth
  deriving DecidableEq

namespace FailureTable

/-- Checks the number of fragments first and then the depth. -/
def ofCounts (fragments depth : Nat) : Except ParamsError FailureTable :=
  if hf : 0 < fragments ∧ fragments ≤ maxFragments then
    if hd : 0 < depth ∧ depth ≤ failureWidth then
      .ok ⟨fragments, depth, hf, hd⟩
    else .error (.failureDepthOutOfRange depth failureWidth)
  else .error (.fragmentCountOutOfRange fragments maxFragments)

/-- The row of a pattern. -/
def padded (pattern : List Nat) : List Int :=
  pattern.map Int.ofNat ++ List.replicate (failureWidth - pattern.length) (-1)

/-- The patterns of lost fragments. -/
def patterns (t : FailureTable) : List (List Nat) :=
  (List.range' 1 t.depth).flatMap (tuples t.fragments)

def rows (t : FailureTable) : List (List Int) := t.patterns.map padded

/-- The number of rows. -/
def size (t : FailureTable) : Nat :=
  ((List.range' 1 t.depth).map (Binomial.choose t.fragments)).foldr (· + ·) 0

/-- What can stop the generation of a table. -/
inductive GenerationFault where
  | refused (cause : ParamsError)
  | index (fault : IndexFault)
  /-- The rows are more or fewer than expected. -/
  | miscounted (rows expected : Nat)
  deriving Repr, DecidableEq

def blankRow : List Int := List.replicate failureWidth (-1)

/-- Writes the fragments of a pattern over the first cells of a row, as 32-bit numbers. -/
def overwrite : List Int → List Nat → List Int
  | _ :: row, fragment :: pattern => (Int32.ofNat fragment).toInt :: overwrite row pattern
  | row, _ => row

/-- Appends a row for each tuple of a stream, until the stream ends. -/
def pushRows (rows : List (List Int)) (s : TupleStream) : List (List Int) :=
  match _ : s.next? with
  | none => rows
  | some (pattern, next) => pushRows (rows ++ [overwrite blankRow pattern]) next
termination_by s.remaining
decreasing_by exact TupleStream.remaining_next? ‹_›

/-- Adds the number of patterns of a size. -/
def addCount (fragments total size : Nat) : Except IndexFault Nat := do
  addIndex total (← Binomial.chooseInWords fragments size)

/-- The number of rows as it is expected. -/
def countInWords (fragments depth : Nat) : Except IndexFault Nat :=
  (List.range' 1 depth).foldlM (addCount fragments) 0

/-- The rows of a table, refused unless there are as many as expected. -/
def generate (fragments depth : Nat) : Except GenerationFault (List (List Int)) := do
  if fragments = 0 ∨ maxFragments < fragments then
    throw (.refused (.fragmentCountOutOfRange fragments maxFragments))
  if depth = 0 ∨ failureWidth < depth then
    throw (.refused (.failureDepthOutOfRange depth failureWidth))
  let expected ← (countInWords fragments depth).mapError .index
  let rows := (List.range' 1 depth).foldl
    (fun rows size => pushRows rows (.start fragments size)) []
  if rows.length ≠ expected then
    throw (.miscounted rows.length expected)
  return rows

/-- The name of the constant that holds the number of rows. -/
def countName (t : FailureTable) : String := s!"NUM_{t.fragments}_{t.depth + 1}_COMBS"

def arrayName (t : FailureTable) : String := s!"failure_combs_{t.fragments}_{t.depth + 1}"

/-- Items in braces without blanks inside them. -/
def tightlyBraced (items : List String) : String := "\x7b" ++ ", ".intercalate items ++ "\x7d"

def renderRow (row : List Int) : String := tightlyBraced (row.map toString)

/-- The definition of the number of rows, with the line end. -/
def countDefinition (t : FailureTable) : String := s!"#define {t.countName} {t.size}\n"

/-- The definition of the rows, with the line end. -/
def arrayDefinition (t : FailureTable) : String :=
  s!"int {t.arrayName}[{t.countName}][{failureWidth}] =  " ++
    s!"{tightlyBraced (t.rows.map renderRow)} ;\n"

/-- The table as C text, in pieces. -/
def pieces (t : FailureTable) : List Piece := [.plain t.countDefinition, .plain t.arrayDefinition]

def render (t : FailureTable) : String := String.join (t.pieces.map Piece.text)

/-- Writes the table to a sink. -/
def write (t : FailureTable) (s : Sink) : Except WriteError Unit × Sink := Sink.writeAll t.pieces s

end FailureTable

end FlatXor
