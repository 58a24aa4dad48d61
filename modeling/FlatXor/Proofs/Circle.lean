import FlatXor.Proofs.Convergence
import Mathlib.Dynamics.PeriodicPts.Defs

/-!
# The circle of a stuck search

A stuck search tries the candidates inside its needed set in turn. After one round
they stand at the end of the pool, and from there on each trial rotates them. So the
search is in a circle after one round of trials, and the circle takes one more, or a
part of it when equal candidates make the queue look the same earlier.
-/
namespace FlatXor.SearchState

variable {p : CodeParams} {pool : Pool} {s : SearchState}

/-- The candidates of the pool that are not inside the needed set. -/
def others (s : SearchState) : Pool := s.pool.filter fun c => !c.isSubset s.needed

lemma queue_length_pos (hs : Resumed p s) : 0 < s.queue.length := by
  obtain ⟨c, hc, hsub⟩ := hs.inside
  exact List.length_pos_of_mem (mem_queue.mpr ⟨hc, hsub⟩)

/-- After the first round each trial rotates the queue. -/
theorem pool_turned_round (s : SearchState) (i : ℕ) :
    (s.turned (s.queue.length + i)).pool = s.others ++ s.queue.rotate i := by
  have houtside : ∀ d ∈ s.others, ¬ d.isSubset s.needed = true := by
    intro d hd
    have hout := (List.mem_filter.mp hd).2
    rwa [Bool.not_eq_true', ← Bool.not_eq_true] at hout
  have hqueue : ∀ d ∈ s.queue, d.isSubset s.needed = true := fun d hd => (List.mem_filter.mp hd).2
  rw [pool_turned, Nat.add_comm, Function.iterate_add_apply, queue, Pool.turn_iterate_length]
  exact Pool.turn_iterate_append houtside hqueue i

lemma turned_eq_of_pool_eq {i j : ℕ} (h : (s.turned i).pool = (s.turned j).pool) :
    s.turned i = s.turned j := by
  rw [turned, turned, SearchState.mk.injEq]
  exact ⟨rfl, h, rfl⟩

/-- The second round leads back to where it began. -/
theorem turned_two_rounds (s : SearchState) :
    s.turned (s.queue.length + s.queue.length) = s.turned s.queue.length := by
  apply turned_eq_of_pool_eq
  rw [pool_turned_round, List.rotate_length]
  have hround := pool_turned_round s 0
  rw [List.rotate_zero] at hround
  exact hround.symm

variable (hs : Resumed p s) (hstuck : Stuck p s)
include hs hstuck

/-- After one round of trials a stuck search is on its circle. -/
theorem Resumed.on_circle :
    Function.IsPeriodicPt (next p) (2 * s.queue.length) (s.after p (2 * s.queue.length)) := by
  show (s.after p (2 * s.queue.length)).after p (2 * s.queue.length) = s.after p (2 * s.queue.length)
  rw [← after_add, ← Nat.mul_add, hs.after_two_mul hstuck, hs.after_two_mul hstuck,
    turned_two_rounds]

omit hs hstuck in
/-- Once a search that sticks is on its circle, its states recur. -/
theorem SticksAt.trail_add_round (hpool : p.Accepts pool) {k : ℕ} (h : SticksAt p pool k) {j : ℕ}
    (hj : k + 1 + 2 * (trail p pool (k + 1)).queue.length ≤ j) :
    trail p pool (j + 2 * (trail p pool (k + 1)).queue.length) = trail p pool j := by
  obtain ⟨i, rfl⟩ := Nat.exists_eq_add_of_le hj
  have hcircle := ((h.resumed hpool).on_circle h.stuck).apply_iterate i
  rw [trail_add _ _ (_ + i), trail_add _ _ (k + 1 + _), trail_add _ _ (k + 1)]
  exact hcircle

end FlatXor.SearchState
