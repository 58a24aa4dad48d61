import FlatXor.Search
import FlatXor.Proofs.Candidates
import FlatXor.Proofs.Trajectory

/-!
# Calls of the step function

A caller begins a search of a pool and calls its step function again and again,
also after a report of oscillation. The calls go through the states of the
trajectory, whether or not oscillation is watched for. A report takes the place
of the outcome that the call would have had, so what a call did is read off the
state before it.
-/
namespace FlatXor.Search

open SearchState (Step Sound)

variable {p : CodeParams} {pool : Pool} {detect : Bool} {s : Search}

/-- The searches that a caller can begin: of a pool that is accepted, or of all
candidates in lexicographic order. -/
inductive Begins (p : CodeParams) (detect : Bool) : Pool → Search → Prop
  | ofPool {pool : Pool} {s : Search} (h : ofPool p pool detect = .ok s) : Begins p detect pool s
  | ofParams : Begins p detect p.candidates (ofParams p detect)

theorem ofPool_eq_ok_iff :
    ofPool p pool detect = .ok s ↔ p.Accepts pool ∧ s = start p pool detect := by
  unfold ofPool CodeParams.Accepts
  cases hfind : pool.find? fun c => !p.admits c with
  | none =>
    have hall : ∀ c ∈ pool, p.admits c = true := by
      simpa using hfind
    simp only [Except.ok.injEq]
    exact ⟨fun h => ⟨hall, h.symm⟩, fun h => h.2.symm⟩
  | some c =>
    have hc : p.admits c = false := by
      simpa using List.find?_some hfind
    constructor
    · intro h
      cases h
    · intro h
      rw [h.1 c (List.mem_of_find?_eq_some hfind)] at hc
      cases hc

theorem Begins.accepts (h : Begins p detect pool s) : p.Accepts pool := by
  cases h with
  | ofPool h => exact (ofPool_eq_ok_iff.mp h).1
  | ofParams => exact fun c hc => CodeParams.admits_of_mem_candidates hc

theorem Begins.eq_start (h : Begins p detect pool s) : s = start p pool detect := by
  cases h with
  | ofPool h => exact (ofPool_eq_ok_iff.mp h).2
  | ofParams => rfl

lemma isConverged_eq_true_iff :
    s.isConverged = true ↔ s.state.pool.length ≤ s.params.parities :=
  SearchState.isConverged_eq_true_iff

lemma isConverged_eq_false_iff :
    s.isConverged = false ↔ s.params.parities < s.state.pool.length := by
  rw [← Bool.not_eq_true, isConverged_eq_true_iff, Nat.not_le]

lemma step_of_converged (h : s.isConverged = true) : s.step = (.ok .converged, s) := by
  rw [step, if_pos h]

/-- What the detector, if there is one, says of the next state. -/
def report? (s : Search) (state : SearchState) : Option ℕ :=
  s.detector.bind fun d => (d.observe state).1

/-- A call that makes a move counts it, shows the new state to the detector, and
answers with the move unless the detector reports. -/
theorem step_of_move {move : Move} {state : SearchState} (hopen : s.isConverged = false)
    (h : Step s.params s.state move state) :
    s.step =
      (match s.report? state with
        | none => .ok (.moved move)
        | some period => .error (.oscillating (s.statistics.steps + 1) period),
       { s with
          state
          statistics := (s.statistics.countStep.countMove move).recordDepth state.used.length
          detector := s.detector.map fun d => (d.observe state).2 }) := by
  have hadvance := SearchState.advance?_of_step h
  cases hd : s.detector with
  | none => simp [step, hopen, hadvance, hd, report?]
  | some d =>
    cases hobs : d.observe state with
    | mk report d' =>
      cases report <;> simp [step, hopen, hadvance, hd, hobs, report?, Statistics.countStep]

/-- A call in which there is nothing to do or to take back leaves the state. -/
lemma step_of_exhausted (hopen : s.isConverged = false) (h : s.state.advance? s.params = none) :
    s.step.2 = { s with statistics := s.statistics.countStep } := by
  simp [step, hopen, h]

/-- A call takes the state one step on and keeps the parameters. -/
theorem step_state (s : Search) :
    s.step.2.state = s.state.next s.params ∧ s.step.2.params = s.params := by
  cases hconv : s.isConverged with
  | true =>
    rw [step_of_converged hconv, SearchState.next_of_converged (isConverged_eq_true_iff.mp hconv)]
    exact ⟨rfl, rfl⟩
  | false =>
    have hopen := isConverged_eq_false_iff.mp hconv
    cases hadvance : s.state.advance? s.params with
    | none =>
      rw [step_of_exhausted hconv hadvance, SearchState.next,
        if_neg (by rw [SearchState.isConverged_eq_true_iff]; omega), hadvance]
      exact ⟨rfl, rfl⟩
    | some r =>
      have h : SearchState.Step s.params s.state r.1 r.2 := SearchState.step_of_advance? hadvance
      rw [step_of_move hconv h, SearchState.next_of_step hopen h]
      exact ⟨rfl, rfl⟩

/-- The search after `k` calls of `step`. -/
def after (s : Search) (k : ℕ) : Search := (fun s => s.step.2)^[k] s

@[simp] lemma after_zero (s : Search) : s.after 0 = s := rfl

lemma after_succ (s : Search) (k : ℕ) : s.after (k + 1) = (s.after k).step.2 :=
  Function.iterate_succ_apply' _ _ _

lemma after_step (s : Search) (k : ℕ) : s.step.2.after k = s.after (k + 1) :=
  (Function.iterate_succ_apply _ _ _).symm

lemma after_add (s : Search) (i j : ℕ) : s.after (i + j) = (s.after i).after j := by
  rw [after, Nat.add_comm i j, Function.iterate_add_apply, after, after]

/-- What the call after `k` others does, also when it reports oscillation instead. -/
def moveAt (s : Search) (k : ℕ) : Option Move := (s.after k).state.move? (s.after k).params

/-- The calls go through the trajectory of the state. -/
theorem after_state (s : Search) (k : ℕ) :
    (s.after k).state = s.state.after s.params k ∧ (s.after k).params = s.params := by
  induction k with
  | zero => exact ⟨rfl, rfl⟩
  | succ k ih =>
    obtain ⟨hstate, hparams⟩ := step_state (s.after k)
    rw [after_succ, SearchState.after_succ, ← ih.1, hstate, hparams, ih.2]
    exact ⟨rfl, rfl⟩

theorem start_after_state (p : CodeParams) (pool : Pool) (detect : Bool) (k : ℕ) :
    ((start p pool detect).after k).state = SearchState.trail p pool k :=
  (after_state _ k).1

theorem start_after_params (p : CodeParams) (pool : Pool) (detect : Bool) (k : ℕ) :
    ((start p pool detect).after k).params = p :=
  (after_state _ k).2

/-- A call that makes a move answers with it or with a report of oscillation. -/
theorem step_answer {k : ℕ} {move : Move} (h : s.moveAt k = some move) :
    (s.after k).step.1 = .ok (.moved move) ∨
      ∃ step period, (s.after k).step.1 = .error (.oscillating step period) := by
  obtain ⟨hopen, hstep⟩ := SearchState.move?_eq_some_iff.mp h
  rw [step_of_move (isConverged_eq_false_iff.mpr hopen) hstep]
  cases (s.after k).report? _ with
  | none => exact .inl rfl
  | some period => exact .inr ⟨_, period, rfl⟩

/-- A call that answers with a move has made it. -/
theorem moveAt_of_step_eq_ok {k : ℕ} {move : Move} (h : (s.after k).step.1 = .ok (.moved move)) :
    s.moveAt k = some move := by
  cases hconv : (s.after k).isConverged with
  | true =>
    rw [step_of_converged hconv] at h
    cases h
  | false =>
    have hopen := isConverged_eq_false_iff.mp hconv
    cases hadvance : (s.after k).state.advance? (s.after k).params with
    | none => simp [step, hconv, hadvance] at h
    | some r =>
      have hstep : SearchState.Step (s.after k).params (s.after k).state r.1 r.2 :=
        SearchState.step_of_advance? hadvance
      rw [step_of_move hconv hstep] at h
      cases hreport : (s.after k).report? r.2 with
      | some period =>
        rw [hreport] at h
        cases h
      | none =>
        rw [hreport] at h
        cases h
        exact SearchState.move?_eq_some_iff.mpr
          ⟨hopen, by rwa [SearchState.next_of_step hopen hstep]⟩

theorem start_moveAt_eq_some_iff {k : ℕ} {move : Move} :
    (start p pool detect).moveAt k = some move ↔
      p.parities < (SearchState.trail p pool k).pool.length ∧
        Step p (SearchState.trail p pool k) move (SearchState.trail p pool (k + 1)) := by
  rw [moveAt, start_after_state, start_after_params, SearchState.move?_eq_some_iff,
    SearchState.trail_succ]

lemma start_moveAt_eq_none {k : ℕ} (hconv : (SearchState.trail p pool k).pool.length ≤ p.parities) :
    (start p pool detect).moveAt k = none := by
  rw [Option.eq_none_iff_forall_ne_some]
  intro move h
  exact absurd (start_moveAt_eq_some_iff.mp h).1 (Nat.not_lt_of_le hconv)

lemma start_isConverged_after {k : ℕ} :
    ((start p pool detect).after k).isConverged = true ↔
      (SearchState.trail p pool k).pool.length ≤ p.parities := by
  rw [isConverged_eq_true_iff, start_after_state, start_after_params]

lemma start_open_after {k : ℕ} :
    ((start p pool detect).after k).isConverged = false ↔
      p.parities < (SearchState.trail p pool k).pool.length := by
  rw [isConverged_eq_false_iff, start_after_state, start_after_params]

/-- What a call does on the trajectory of an accepted pool. -/
theorem start_step (hpool : p.Accepts pool) (detect : Bool) {k : ℕ}
    (hopen : p.parities < (SearchState.trail p pool k).pool.length) :
    ∃ move, ((start p pool detect).after k).step =
      (match ((start p pool detect).after k).report? (SearchState.trail p pool (k + 1)) with
        | none => .ok (.moved move)
        | some period =>
          .error (.oscillating (((start p pool detect).after k).statistics.steps + 1) period),
       { (start p pool detect).after k with
          state := SearchState.trail p pool (k + 1)
          statistics := (((start p pool detect).after k).statistics.countStep.countMove
            move).recordDepth (SearchState.trail p pool (k + 1)).used.length
          detector := ((start p pool detect).after k).detector.map fun d =>
            (d.observe (SearchState.trail p pool (k + 1))).2 }) := by
  obtain ⟨move, hstep⟩ := SearchState.exists_step_trail hpool hopen
  refine ⟨move, step_of_move (start_open_after.mpr hopen) ?_⟩
  rwa [start_after_params, start_after_state]

end FlatXor.Search
