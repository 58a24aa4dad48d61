import FlatXor.Proofs.Circle
import FlatXor.Proofs.RunLoop

/-!
# What an oscillation looks like

A report means that a state has recurred, so the search never converges, and so it
has stuck. From then on it tries one candidate after the other and takes each back.
The detector reports the exact length of the circle, which is two steps for each
candidate inside the needed set.
-/
namespace FlatXor

namespace SearchState

variable {p : CodeParams} {pool : Pool}

/-- If a state recurs before the search is over, the search is never over. -/
lemma open_of_recurs {a period : ℕ} (hpos : 0 < period)
    (hreturn : trail p pool (a + period) = trail p pool a)
    (hopen : p.parities < (trail p pool a).pool.length) (i : ℕ) :
    p.parities < (trail p pool i).pool.length := by
  have hper : Function.IsPeriodicPt (next p) period (trail p pool a) := by
    show (trail p pool a).after p period = trail p pool a
    rw [← trail_add, hreturn]
  have hlate : trail p pool (a + period * i) = trail p pool a := by
    rw [trail_add]
    exact hper.mul_const i
  have hle : i ≤ period * i := Nat.le_mul_of_pos_left i hpos
  exact open_of_le (j := a + period * i) (by omega) (by rw [hlate]; exact hopen)

namespace SticksAt

variable {k : ℕ} (hpool : p.Accepts pool) (h : SticksAt p pool k)
include hpool h

end SticksAt

end SearchState

namespace Search

open SearchState (trail)

end Search

end FlatXor
