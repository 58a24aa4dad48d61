import FlatXor.Pool
import Mathlib.Data.List.Rotate
import Mathlib.Logic.Function.Iterate

/-!
# Turning the pool

A trial that leads nowhere takes the first candidate inside the needed set out of
the pool and puts it back at the end. The candidates inside then behave as a
queue: each comes to the front once before any comes twice, and after one round
they stand at the end of the pool in their old order, behind all the others.
From there on the pool runs in a circle.
-/
namespace FlatXor.Pool

variable {inside : ParitySet → Bool} {pool outside queue : Pool}

/-- The first candidate that is inside goes to the end. -/
def turn (inside : ParitySet → Bool) (pool : Pool) : Pool :=
  match pool.takeFirst? inside with
  | some (c, rest) => rest.pushBack c
  | none => pool

theorem turn_append_cons {front back : Pool} {c : ParitySet}
    (hfront : ∀ d ∈ front, ¬ inside d = true) (hc : inside c = true) :
    turn inside (front ++ c :: back) = front ++ back ++ [c] := by
  have htake : takeFirst? inside (front ++ c :: back) = some (c, front ++ back) :=
    takeFirst?_eq_some_iff.mpr ⟨hc, front, back, hfront, rfl, rfl⟩
  rw [turn, htake]
  rfl

theorem turn_of_forall_not (h : ∀ d ∈ pool, ¬ inside d = true) : turn inside pool = pool := by
  rw [turn, takeFirst?_eq_none_iff.mpr h]

theorem turn_perm (inside : ParitySet → Bool) (pool : Pool) : (turn inside pool).Perm pool := by
  cases htake : pool.takeFirst? inside with
  | none => rw [turn, htake]
  | some r =>
    obtain ⟨hc, front, back, hfront, rfl, -⟩ := takeFirst?_eq_some_iff.mp htake
    rw [turn_append_cons hfront hc]
    exact (List.perm_append_singleton _ _).trans List.perm_middle.symm

theorem turn_iterate_perm (inside : ParitySet → Bool) (pool : Pool) (i : ℕ) :
    ((turn inside)^[i] pool).Perm pool := by
  induction i with
  | zero => exact List.Perm.refl _
  | succ i ih =>
    rw [Function.iterate_succ_apply']
    exact (turn_perm _ _).trans ih

/-- In the first round `i` turns bring the first `i` candidates of the queue to the
end, and the rest of the pool keeps its order. -/
theorem turn_iterate_split {i : ℕ} (hi : i ≤ (pool.filter inside).length) :
    ∃ rest, (turn inside)^[i] pool = rest ++ (pool.filter inside).take i ∧
      rest.filter inside = (pool.filter inside).drop i ∧
      rest.filter (fun d => !inside d) = pool.filter (fun d => !inside d) := by
  induction i with
  | zero => exact ⟨pool, by simp⟩
  | succ i ih =>
    obtain ⟨rest, hturn, hqueue, hothers⟩ := ih (Nat.le_of_succ_le hi)
    rw [List.drop_eq_getElem_cons hi] at hqueue
    obtain ⟨front, back, rfl, hfront, hc, hback⟩ := List.filter_eq_cons_iff.mp hqueue
    refine ⟨front ++ back, ?_, ?_, ?_⟩
    · rw [Function.iterate_succ_apply', hturn, List.append_assoc, List.cons_append,
        turn_append_cons hfront hc, ← List.take_append_getElem hi]
      simp only [List.append_assoc]
    · rw [List.filter_append, hback, List.filter_eq_nil_iff.mpr hfront, List.nil_append]
    · rw [← hothers]
      simp [List.filter_append, hc]

/-- After one round the queue stands behind all others. -/
theorem turn_iterate_length (inside : ParitySet → Bool) (pool : Pool) :
    (turn inside)^[(pool.filter inside).length] pool =
      pool.filter (fun d => !inside d) ++ pool.filter inside := by
  obtain ⟨rest, hturn, hqueue, hothers⟩ :=
    turn_iterate_split (le_refl (pool.filter inside).length)
  rw [List.drop_length, List.filter_eq_nil_iff] at hqueue
  have hrest : rest.filter (fun d => !inside d) = rest :=
    List.filter_eq_self.mpr fun d hd => by simpa using hqueue d hd
  rw [hturn, List.take_length, ← hothers, hrest]

/-- Where the queue stands at the end, turning the pool rotates it. -/
theorem turn_iterate_append (houtside : ∀ d ∈ outside, ¬ inside d = true)
    (hqueue : ∀ d ∈ queue, inside d = true) (i : ℕ) :
    (turn inside)^[i] (outside ++ queue) = outside ++ queue.rotate i := by
  induction i with
  | zero => simp
  | succ i ih =>
    rw [Function.iterate_succ_apply', ih, ← List.rotate_rotate]
    cases hrotated : queue.rotate i with
    | nil =>
      rw [List.rotate_nil, List.append_nil]
      exact turn_of_forall_not houtside
    | cons c rest =>
      have hc : inside c = true := hqueue c (List.mem_rotate.mp (by rw [hrotated]; simp))
      rw [turn_append_cons houtside hc]
      simp

end FlatXor.Pool
