import FlatXor.Sink
import Mathlib.Data.List.Basic

/-!
# The room of a sink

Whether a text is written and how it fails depends on one place of the text alone: the first
that the sink has no room for. A text without this place is written. In any other one the piece
with the place fails, and the sink has taken what lies in front of it.
-/
namespace FlatXor

namespace Piece

/-- The text of pieces, one after the other. -/
def joined (pieces : List Piece) : String := String.join (pieces.map text)

/-- The piece that has character `i` of the text of the pieces. -/
def at? : List Piece → ℕ → Option Piece
  | [], _ => none
  | p :: pieces, i => if i < p.text.length then some p else at? pieces (i - p.text.length)

@[simp] lemma joined_nil : joined [] = "" := rfl

@[simp] lemma joined_cons (p : Piece) (pieces : List Piece) :
    joined (p :: pieces) = p.text ++ joined pieces := by
  simp [joined]

lemma joined_append (front back : List Piece) :
    joined (front ++ back) = joined front ++ joined back := by
  simp [joined]

/-- Every character of the text is in a piece. -/
theorem at?_eq_none_iff {pieces : List Piece} {i : ℕ} :
    at? pieces i = none ↔ (joined pieces).length ≤ i := by
  induction pieces generalizing i with
  | nil => simp [at?]
  | cons p pieces ih =>
    rw [at?, joined_cons, String.length_append]
    split_ifs with h
    · exact iff_of_false id (by omega)
    · rw [ih]
      omega

theorem at?_append (front back : List Piece) (i : ℕ) :
    at? (front ++ back) i =
      if i < (joined front).length then at? front i else at? back (i - (joined front).length) := by
  induction front generalizing i with
  | nil => rfl
  | cons p front ih =>
    rw [List.cons_append, at?, at?, joined_cons, String.length_append, ih]
    by_cases h : i < p.text.length
    · rw [if_pos h, if_pos h, if_pos (by omega)]
    · rw [if_neg h, if_neg h, Nat.sub_sub]
      congr 1
      exact propext (by omega)

/-- The pieces before the one with character `i`, and those behind it. -/
theorem exists_split_of_at?_eq_some {pieces : List Piece} {i : ℕ} {p : Piece}
    (h : at? pieces i = some p) :
    ∃ front back, pieces = front ++ p :: back ∧ (joined front).length ≤ i ∧
      i < (joined front).length + p.text.length := by
  induction pieces generalizing i with
  | nil => cases h
  | cons q pieces ih =>
    rw [at?] at h
    split_ifs at h with hlt
    · obtain rfl := Option.some.inj h
      exact ⟨[], pieces, rfl, Nat.zero_le i, by simpa using hlt⟩
    · obtain ⟨front, back, rfl, hle, hlt'⟩ := ih h
      refine ⟨q :: front, back, rfl, ?_, ?_⟩
      · rw [joined_cons, String.length_append]
        omega
      · rw [joined_cons, String.length_append]
        omega

end Piece

namespace Sink

variable {pieces : List Piece} {s : Sink} {p : Piece}

lemma write_of_le (h : p.text.length ≤ s.room) :
    s.write p = (.ok (), { s with room := s.room - p.text.length, taken := p.text :: s.taken }) :=
  if_pos h

lemma write_of_lt (h : s.room < p.text.length) :
    s.write p = (.error (p.error s.reason),
      { s with room := 0, taken := String.ofList (p.text.toList.take s.room) :: s.taken }) :=
  if_neg (Nat.not_le_of_lt h)

/-- A text for which there is room is written. -/
theorem writeAll_of_none (h : Piece.at? pieces s.room = none) : (writeAll pieces s).1 = .ok () := by
  induction pieces generalizing s with
  | nil => rfl
  | cons p pieces ih =>
    rw [Piece.at?] at h
    split_ifs at h with hlt
    rw [writeAll, write_of_le (Nat.le_of_not_lt hlt)]
    exact ih h

/-- The piece with the first character without room fails. -/
theorem writeAll_of_some (h : Piece.at? pieces s.room = some p) :
    (writeAll pieces s).1 = .error (p.error s.reason) := by
  induction pieces generalizing s with
  | nil => cases h
  | cons q pieces ih =>
    rw [Piece.at?] at h
    rw [writeAll]
    split_ifs at h with hlt
    · obtain rfl := Option.some.inj h
      rw [write_of_lt hlt]
      rfl
    · rw [write_of_le (Nat.le_of_not_lt hlt)]
      exact ih h

/-- What arrives of a text is as much of its front as there is room for. -/
theorem contents_writeAll (pieces : List Piece) (s : Sink) :
    (writeAll pieces s).2.contents =
      s.contents ++ String.ofList ((Piece.joined pieces).toList.take s.room) := by
  induction pieces generalizing s with
  | nil => simp [writeAll]
  | cons p pieces ih =>
    have hwrite := contents_write s p
    rw [writeAll, Piece.joined_cons, String.toList_append, List.take_append, String.length_toList]
    by_cases h : p.text.length ≤ s.room
    · rw [write_of_le h] at hwrite ⊢
      refine (ih _).trans ?_
      rw [hwrite, String.append_assoc, ← String.ofList_append]
    · have hnone : s.room - p.text.length = 0 := by omega
      rw [write_of_lt (Nat.lt_of_not_le h)] at hwrite ⊢
      rw [hnone, List.take_zero, List.append_nil]
      exact hwrite

/-- The last write is the one that failed: the pieces before it are taken whole, that one in
part, and those behind it are not looked at. -/
theorem taken_writeAll_of_lt (front back : List Piece) (hle : (Piece.joined front).length ≤ s.room)
    (hlt : s.room < (Piece.joined front).length + p.text.length) :
    (writeAll (front ++ p :: back) s).2.taken =
      String.ofList (p.text.toList.take (s.room - (Piece.joined front).length)) ::
        ((front.map Piece.text).reverse ++ s.taken) := by
  induction front generalizing s with
  | nil =>
    have hfull : s.room < p.text.length := by simpa using hlt
    rw [List.nil_append, writeAll, write_of_lt hfull]
    rfl
  | cons q front ih =>
    rw [Piece.joined_cons, String.length_append] at hle hlt
    have hfits : q.text.length ≤ s.room := by omega
    rw [List.cons_append, writeAll, write_of_le hfits, Piece.joined_cons, String.length_append]
    refine (ih ?_ ?_).trans ?_
    · show (Piece.joined front).length ≤ s.room - q.text.length
      omega
    · show s.room - q.text.length < (Piece.joined front).length + p.text.length
      omega
    · rw [Nat.sub_sub]
      simp

/-- A sink with room for all the pieces takes them all. -/
theorem writeAll_of_length_le (h : (String.join (pieces.map Piece.text)).length ≤ s.room) :
    ∃ s', writeAll pieces s = (.ok (), s') ∧
      s'.contents = s.contents ++ String.join (pieces.map Piece.text) := by
  have hok := writeAll_of_none (Piece.at?_eq_none_iff.mpr h)
  refine ⟨(writeAll pieces s).2, Prod.ext hok rfl, ?_⟩
  rw [contents_writeAll, List.take_of_length_le (by rwa [String.length_toList]),
    String.ofList_toList]
  rfl

end Sink

end FlatXor
