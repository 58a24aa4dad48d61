/-!
# Sinks that fill up

Output is written in pieces, one after the other, to a sink that takes a limited
number of characters and then fails. What arrives is a front part of the whole
text: a piece that does not fit is cut off at the limit, and nothing is written
after it. The text of the programs here is ASCII throughout, so a character is a
byte.
-/
namespace FlatXor

/-- Reports that output could not be written, with the sink's own reason. -/
inductive WriteError where
  /-- The sink failed in plain text. -/
  | io (reason : String)
  /-- The sink failed inside a JSON object. -/
  | json (reason : String)
  deriving Repr, DecidableEq

namespace WriteError

def message : WriteError → String
  | io reason => s!"failed to write tables: {reason}"
  | json reason => s!"failed to encode table as JSON: {reason}"

end WriteError

/-- A stretch of output. -/
inductive Piece where
  | plain (text : String)
  /-- One whole JSON object. -/
  | object (text : String)
  deriving Repr, DecidableEq

namespace Piece

def text : Piece → String
  | plain text => text
  | object text => text

/-- The error when the sink fails inside the piece. -/
def error (reason : String) : Piece → WriteError
  | plain _ => .io reason
  | object _ => .json reason

end Piece

structure Sink where
  /-- The number of characters that the sink still takes. -/
  room : Nat
  /-- The reason that it gives when it fails. -/
  reason : String
  /-- The texts that it has taken, latest first. -/
  taken : List String
  deriving Repr, DecidableEq

namespace Sink

/-- An empty sink. -/
def ofRoom (room : Nat) (reason : String) : Sink := ⟨room, reason, []⟩

/-- All that the sink has taken. -/
def contents (s : Sink) : String := String.join s.taken.reverse

/-- Writes one piece. If it does not fit, the sink takes what it has room for. -/
def write (s : Sink) (p : Piece) : Except WriteError Unit × Sink :=
  if p.text.length ≤ s.room then
    (.ok (), { s with room := s.room - p.text.length, taken := p.text :: s.taken })
  else
    (.error (p.error s.reason),
      { s with room := 0, taken := String.ofList (p.text.toList.take s.room) :: s.taken })

/-- Goes on from what a write has left, unless it has failed. -/
@[inline]
def proceed (r : Except WriteError Unit × Sink) (next : Sink → Except WriteError Unit × Sink) :
    Except WriteError Unit × Sink :=
  match r with
  | (.ok _, s) => next s
  | (.error e, s) => (.error e, s)

/-- Writes pieces up to the first that does not fit. -/
def writeAll : List Piece → Sink → Except WriteError Unit × Sink
  | [], s => (.ok (), s)
  | p :: pieces, s => proceed (s.write p) (writeAll pieces)

/-- Writes the pieces of each item in turn, up to the first that does not fit. The
pieces of later items are then not needed. -/
def writeEach {α : Type} (pieces : α → List Piece) : List α → Sink → Except WriteError Unit × Sink
  | [], s => (.ok (), s)
  | a :: items, s => proceed (writeAll (pieces a) s) (writeEach pieces items)

/-- What arrives of a piece is as much of its front as there is room for. -/
theorem contents_write (s : Sink) (p : Piece) :
    (s.write p).2.contents = s.contents ++ String.ofList (p.text.toList.take s.room) := by
  unfold write
  split
  · next h =>
    rw [List.take_of_length_le (by rwa [String.length_toList])]
    simp [contents]
  · simp [contents]

theorem room_write (s : Sink) (p : Piece) : (s.write p).2.room = s.room - p.text.length := by
  unfold write
  split
  · rfl
  · show 0 = _
    omega

theorem proceed_proceed (r : Except WriteError Unit × Sink)
    (f g : Sink → Except WriteError Unit × Sink) :
    proceed (proceed r f) g = proceed r fun s => proceed (f s) g := by
  obtain ⟨r, s⟩ := r
  cases r <;> rfl

theorem writeAll_append (front back : List Piece) (s : Sink) :
    writeAll (front ++ back) s = proceed (writeAll front s) (writeAll back) := by
  induction front generalizing s with
  | nil => rfl
  | cons p front ih =>
    have ih := funext ih
    rw [List.cons_append, writeAll, writeAll, ih, proceed_proceed]

/-- Writing item by item is writing all the pieces. -/
theorem writeEach_eq_writeAll {α : Type} (pieces : α → List Piece) (items : List α) (s : Sink) :
    writeEach pieces items s = writeAll (items.flatMap pieces) s := by
  induction items generalizing s with
  | nil => rfl
  | cons a items ih =>
    have ih := funext ih
    rw [writeEach, List.flatMap_cons, writeAll_append, ih]

end Sink

end FlatXor
