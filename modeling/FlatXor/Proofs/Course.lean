import FlatXor.Proofs.Calls

/-!
# The course of a search

What a call does to the state and to the statistics does not depend on the detector,
so a search that watches for oscillation takes the same course as one that does not.
As long as a search is open every call makes one step, and the statistics count it.
-/
namespace FlatXor

namespace Statistics

@[simp] lemma steps_countStep (s : Statistics) : s.countStep.steps = s.steps + 1 := rfl

@[simp] lemma steps_countMove (s : Statistics) (move : Move) :
    (s.countMove move).steps = s.steps := by
  cases move <;> rfl

@[simp] lemma steps_recordDepth (s : Statistics) (depth : ℕ) :
    (s.recordDepth depth).steps = s.steps := rfl

/-- The statistics after a call in the given state. -/
def countCall (p : CodeParams) (state : SearchState) (s : Statistics) : Statistics :=
  if state.isConverged p then s
  else
    match state.advance? p with
    | none => s.countStep
    | some (move, state') => (s.countStep.countMove move).recordDepth state'.used.length

end Statistics

namespace Search

/-- A call counts what the state makes it do. -/
theorem step_statistics (s : Search) :
    s.step.2.statistics = s.statistics.countCall s.params s.state := by
  by_cases hconv : s.isConverged = true
  · have hstate : s.state.isConverged s.params = true := hconv
    simp [step_of_converged hconv, Statistics.countCall, hstate]
  · have hopen : s.isConverged = false := by simpa using hconv
    have hstate : s.state.isConverged s.params = false := hopen
    cases hadvance : s.state.advance? s.params with
    | none => simp [step_of_exhausted hopen hadvance, Statistics.countCall, hstate, hadvance]
    | some r =>
      have h : SearchState.Step s.params s.state r.1 r.2 := SearchState.step_of_advance? hadvance
      simp [step_of_move hopen h, Statistics.countCall, hstate, hadvance]

/-- The two searches differ in their detectors at most. -/
structure SameCourse (s s' : Search) : Prop where
  params_eq : s.params = s'.params
  state_eq : s.state = s'.state
  statistics_eq : s.statistics = s'.statistics

variable {s s' : Search}

theorem SameCourse.step (h : SameCourse s s') : SameCourse s.step.2 s'.step.2 := by
  obtain ⟨hstate, hparams⟩ := step_state s
  obtain ⟨hstate', hparams'⟩ := step_state s'
  constructor
  · rw [hparams, hparams', h.params_eq]
  · rw [hstate, hstate', h.params_eq, h.state_eq]
  · rw [step_statistics, step_statistics, h.params_eq, h.state_eq, h.statistics_eq]

theorem SameCourse.after (h : SameCourse s s') (k : ℕ) : SameCourse (s.after k) (s'.after k) := by
  induction k with
  | zero => exact h
  | succ k ih =>
    rw [after_succ, after_succ]
    exact ih.step

variable {p : CodeParams} {pool : Pool}

/-- Until the search is over the calls are counted as steps. -/
theorem start_after_steps (hpool : p.Accepts pool) (detect : Bool) {k : ℕ}
    (hopen : ∀ i < k, p.parities < (SearchState.trail p pool i).pool.length) :
    ((start p pool detect).after k).statistics.steps = k := by
  induction k with
  | zero => rfl
  | succ k ih =>
    have hsteps := ih fun i hi => hopen i (Nat.lt_succ_of_lt hi)
    obtain ⟨move, hcall⟩ := start_step hpool detect (hopen k (Nat.lt_succ_self k))
    rw [after_succ, hcall]
    simp [hsteps]

end Search

end FlatXor
