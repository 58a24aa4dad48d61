import FlatXor.Oscillation
import FlatXor.Statistics

/-!
# Running a coverage search

A search is a state with its statistics and, if oscillation is watched for, a
detector. It can be driven a step at a time or run to its end. The limits decide
only when a run stops, not which states it goes through.
-/
namespace FlatXor

/-- Ways in which a search fails to converge. -/
inductive SearchError where
  /-- Nothing to select and nothing to take back. -/
  | exhausted (step : Nat)
  /-- A state has recurred, so the search would go on for ever. -/
  | oscillating (step period : Nat)
  | stepLimitExceeded (limit : Nat)
  deriving Repr, DecidableEq

namespace SearchError

def message : SearchError → String
  | exhausted step => s!"search exhausted with no selection to backtrack (step {step})"
  | oscillating step period =>
    s!"search oscillates with period {period} (detected at step {step})"
  | stepLimitExceeded limit => s!"search did not converge within {limit} steps"

end SearchError

/-- When a run gives up. -/
structure SearchLimits where
  /-- The number of steps after which to stop, if any. -/
  maxSteps : Option Nat
  /-- Whether to stop as soon as a state recurs. -/
  detectOscillation : Bool
  deriving Repr, DecidableEq

namespace SearchLimits

/-- The number of steps that are allowed unless another is asked for. -/
def defaultMaxSteps : Nat := 1000000

def default : SearchLimits := ⟨some defaultMaxSteps, true⟩

end SearchLimits

structure Search where
  params : CodeParams
  state : SearchState
  statistics : Statistics
  detector : Option (Detector SearchState)
  deriving DecidableEq

/-- What one step of a search came to. -/
inductive StepOutcome where
  | moved (move : Move)
  /-- The search is over, and the step changed nothing. -/
  | converged
  deriving Repr, DecidableEq

/-- The result of a search that has converged. -/
structure SearchOutcome where
  params : CodeParams
  /-- The candidates that are left. -/
  pool : Pool
  /-- The selections in force. -/
  used : UsedStack
  statistics : Statistics
  deriving DecidableEq

namespace Search

/-- A search of the given pool. -/
def start (p : CodeParams) (pool : Pool) (detectOscillation : Bool) : Search where
  params := p
  state := .start p pool
  statistics := .zero
  detector := if detectOscillation then some (.start (.start p pool)) else none

/-- A search of a pool that the caller supplies. The first candidate that the code
does not admit is refused. Candidates may occur more than once. -/
def ofPool (p : CodeParams) (pool : Pool) (detectOscillation : Bool) : Except ParamsError Search :=
  match pool.find? fun c => !p.admits c with
  | some c => .error (.invalidCandidate c p.weight p.parities)
  | none => .ok (start p pool detectOscillation)

/-- A search of all candidates in lexicographic order. -/
def ofParams (p : CodeParams) (detectOscillation : Bool) : Search :=
  start p p.candidates detectOscillation

def isConverged (s : Search) : Bool := s.state.isConverged s.params

/-- One step. A report of the detector counts as an error, but the step has been
taken and the search can go on. -/
def step (s : Search) : Except SearchError StepOutcome × Search :=
  if s.isConverged then (.ok .converged, s)
  else
    let counted := s.statistics.countStep
    match s.state.advance? s.params with
    | none => (.error (.exhausted counted.steps), { s with statistics := counted })
    | some (move, state) =>
      let statistics := (counted.countMove move).recordDepth state.used.length
      match s.detector.map (·.observe state) with
      | none => (.ok (.moved move), { s with state, statistics })
      | some (none, detector) =>
        (.ok (.moved move), { s with state, statistics, detector := some detector })
      | some (some period, detector) =>
        (.error (.oscillating counted.steps period),
          { s with state, statistics, detector := some detector })

def outcome (s : Search) : SearchOutcome := ⟨s.params, s.state.pool, s.state.used, s.statistics⟩

/-- Runs for at most the given number of rounds, and answers `none` when they are
used up. -/
def runFor (maxSteps : Option Nat) : Nat → Search → Option (Except SearchError SearchOutcome)
  | 0, _ => none
  | rounds + 1, s =>
    if s.isConverged then some (.ok s.outcome)
    else
      match maxSteps.filter (· ≤ s.statistics.steps) with
      | some limit => some (.error (.stepLimitExceeded limit))
      | none =>
        match s.step with
        | (.error e, _) => some (.error e)
        | (.ok _, s) => runFor maxSteps rounds s

/-- The number of steps within which a search of `n` candidates for `m` parities
converges if it converges at all. It has to grow its stack `n - m` times, and each
time it tries the candidates inside the needed set in turn, taking back those that
lead nowhere. After one turn of them it has gone on or never will. -/
def convergenceBound (m n : Nat) : Nat := (n - m) * (2 * n + 1)

/-- The number of steps within which a search with a detector ends: a search that
does not converge is in its circle within `convergenceBound` steps, the circle has
at most `2 * n` states, and the detector needs at most as long again. -/
def detectionBound (m n : Nat) : Nat := 2 * convergenceBound m n + 2 * n

/-- The number of candidates that the search started with. -/
def total (s : Search) : Nat := s.state.pool.length + s.state.used.length

/-- Runs to the end: until the search converges, a state recurs or the limit is
reached. Without a limit and without a detector there may be no end, and the
answer is then `none`. -/
def run (s : Search) (maxSteps : Option Nat) : Option (Except SearchError SearchOutcome) :=
  match maxSteps with
  | some limit => s.runFor (some limit) (limit + 1)
  | none => s.runFor none (detectionBound s.params.parities s.total + 1)

end Search

end FlatXor
