import FlatXor.CodeParams
import FlatXor.Pool

/-!
# The steps of a coverage search

A search shrinks a pool of candidates by selecting one at a time, so that the
selections cover the parities evenly. It works in rounds, and keeps the set of
parities that the round still needs. A step does the first of these that it can:

- cover: while at least `t` parities are needed, select the first candidate
  inside the needed set, and need its parities no more;
- roll over: when fewer are needed, select the first candidate around the needed
  set. Its surplus parities already count for the next round, which needs all
  the others;
- backtrack: take back the latest selection, put it at the end of the pool, and
  need its parities again.

A step depends on the state alone, so the state decides the whole course.
-/
namespace FlatXor

structure SearchState where
  needed : ParitySet
  pool : Pool
  used : UsedStack
  deriving Repr, DecidableEq

/-- What a step did, and with which candidate. -/
inductive Move where
  | cover (c : ParitySet)
  | rollover (c : ParitySet)
  | backtrack (c : ParitySet)
  deriving Repr, DecidableEq

namespace Move

def candidate : Move → ParitySet
  | cover c => c
  | rollover c => c
  | backtrack c => c

end Move

namespace SearchState

/-- Nothing is selected and every parity is needed. -/
def start (p : CodeParams) (pool : Pool) : SearchState := ⟨p.full, pool, []⟩

/-- A search is over when it has no more candidates than parities. -/
def isConverged (p : CodeParams) (s : SearchState) : Bool := s.pool.length ≤ p.parities

/-- The selection that the state allows, if any. -/
def select? (p : CodeParams) (s : SearchState) : Option (Move × SearchState) :=
  if p.weight ≤ s.needed.size then
    (s.pool.takeFirst? fun c => c.isSubset s.needed).map fun (c, pool) =>
      (.cover c, ⟨s.needed.symmDiff c, pool, s.used.push c⟩)
  else
    (s.pool.takeFirst? fun c => s.needed.isSubset c).map fun (c, pool) =>
      (.rollover c, ⟨p.full.symmDiff (c.diff s.needed), pool, s.used.push c⟩)

/-- The latest selection goes back to the end of the pool. -/
def takeBack? (s : SearchState) : Option (Move × SearchState) :=
  s.used.pop?.map fun (c, used) => (.backtrack c, ⟨s.needed.union c, s.pool.pushBack c, used⟩)

/-- The step from a state that has not converged: a selection if there is one, and
otherwise a step back. -/
def advance? (p : CodeParams) (s : SearchState) : Option (Move × SearchState) :=
  match s.select? p with
  | some r => some r
  | none => s.takeBack?

/-- The state after one step. A state that has converged, or in which there is
nothing to select and nothing to take back, stays as it is. -/
def next (p : CodeParams) (s : SearchState) : SearchState :=
  if s.isConverged p then s
  else
    match s.advance? p with
    | some (_, s) => s
    | none => s

end SearchState

end FlatXor
