import FlatXor.Proofs.Calls
import FlatXor.Proofs.Detection

/-!
# Runs of a search

A run is a loop of calls, and how it ends is said without the number of rounds that
the loop is given. With enough rounds the loop ends the same way. While the search
is open the detector sees the trajectory, so what a call answers is what the
detector reports on the next state.
-/
namespace FlatXor.Search

open SearchState (Step trail)

variable {p : CodeParams} {pool : Pool} {maxSteps : Option ℕ} {s : Search}
  {r : Except SearchError SearchOutcome}

/-- Is another step allowed? -/
def HasRoom (maxSteps : Option ℕ) (s : Search) : Prop :=
  ∀ limit, maxSteps = some limit → s.statistics.steps < limit

/-- A run from `s` ends after `k` more calls of `step` with the answer `r`. -/
inductive Ends (maxSteps : Option ℕ) : Search → ℕ → Except SearchError SearchOutcome → Prop
  | converged {s : Search} (hconv : s.isConverged = true) : Ends maxSteps s 0 (.ok s.outcome)
  | limit {s : Search} {limit : ℕ} (hopen : s.isConverged = false)
      (hlimit : maxSteps = some limit) (hle : limit ≤ s.statistics.steps) :
      Ends maxSteps s 0 (.error (.stepLimitExceeded limit))
  | failed {s : Search} {e : SearchError} (hopen : s.isConverged = false)
      (hroom : HasRoom maxSteps s) (hstep : s.step.1 = .error e) : Ends maxSteps s 1 (.error e)
  | step {s : Search} {o : StepOutcome} {k : ℕ} {r : Except SearchError SearchOutcome}
      (hopen : s.isConverged = false) (hroom : HasRoom maxSteps s) (hstep : s.step.1 = .ok o)
      (hrest : Ends maxSteps s.step.2 k r) : Ends maxSteps s (k + 1) r

lemma filter_eq_none_iff_hasRoom :
    maxSteps.filter (· ≤ s.statistics.steps) = none ↔ HasRoom maxSteps s := by
  simp [HasRoom, Option.filter_eq_none_iff]

lemma runFor_succ_of_hasRoom (hopen : s.isConverged = false) (hroom : HasRoom maxSteps s)
    (rounds : ℕ) :
    s.runFor maxSteps (rounds + 1) =
      match s.step.1 with
      | .error e => some (.error e)
      | .ok _ => s.step.2.runFor maxSteps rounds := by
  rw [runFor, hopen, filter_eq_none_iff_hasRoom.mpr hroom]
  rcases s.step with ⟨_ | _, s'⟩ <;> rfl

/-- Enough rounds carry the loop to the end of the run. -/
theorem runFor_of_ends {k rounds : ℕ} (h : Ends maxSteps s k r) (hk : k < rounds) :
    s.runFor maxSteps rounds = some r := by
  induction h generalizing rounds with
  | converged hconv =>
    obtain ⟨rounds, rfl⟩ := Nat.exists_eq_add_one_of_ne_zero (Nat.ne_of_gt hk)
    rw [runFor, hconv, if_pos rfl]
  | @limit s limit hopen hlimit hle =>
    obtain ⟨rounds, rfl⟩ := Nat.exists_eq_add_one_of_ne_zero (Nat.ne_of_gt hk)
    have hfilter : maxSteps.filter (· ≤ s.statistics.steps) = some limit := by
      simp [hlimit, hle]
    rw [runFor, hopen, hfilter]
    rfl
  | failed hopen hroom hstep =>
    obtain ⟨rounds, rfl⟩ := Nat.exists_eq_add_one_of_ne_zero (Nat.ne_zero_of_lt hk)
    rw [runFor_succ_of_hasRoom hopen hroom, hstep]
  | step hopen hroom hstep _ ih =>
    obtain ⟨rounds, rfl⟩ := Nat.exists_eq_add_one_of_ne_zero (Nat.ne_zero_of_lt hk)
    rw [runFor_succ_of_hasRoom hopen hroom, hstep]
    exact ih (Nat.lt_of_succ_lt_succ hk)

/-- What the loop answers is how the run ends. -/
theorem ends_of_runFor {rounds : ℕ} (h : s.runFor maxSteps rounds = some r) :
    ∃ k ≤ rounds, Ends maxSteps s k r := by
  induction rounds generalizing s with
  | zero => cases h
  | succ rounds ih =>
    cases hconv : s.isConverged with
    | true =>
      rw [runFor, hconv, if_pos rfl] at h
      obtain rfl := Option.some.inj h
      exact ⟨0, Nat.zero_le _, .converged hconv⟩
    | false =>
      cases hfilter : maxSteps.filter (· ≤ s.statistics.steps) with
      | some limit =>
        rw [runFor, hconv, hfilter] at h
        obtain rfl := Option.some.inj h
        obtain ⟨hlimit, hle⟩ := Option.filter_eq_some_iff.mp hfilter
        exact ⟨0, Nat.zero_le _, .limit hconv hlimit (by simpa using hle)⟩
      | none =>
        have hroom := filter_eq_none_iff_hasRoom.mp hfilter
        rw [runFor_succ_of_hasRoom hconv hroom] at h
        cases hstep : s.step.1 with
        | error e =>
          rw [hstep] at h
          obtain rfl := Option.some.inj h
          exact ⟨1, Nat.succ_le_succ (Nat.zero_le _), .failed hconv hroom hstep⟩
        | ok o =>
          rw [hstep] at h
          obtain ⟨k, hk, hends⟩ := ih h
          exact ⟨k + 1, Nat.succ_le_succ hk, .step hconv hroom hstep hends⟩

theorem exists_ends_of_run (h : s.run maxSteps = some r) : ∃ k, Ends maxSteps s k r := by
  unfold run at h
  cases maxSteps with
  | none =>
    obtain ⟨k, -, hends⟩ := ends_of_runFor h
    exact ⟨k, hends⟩
  | some limit =>
    obtain ⟨k, -, hends⟩ := ends_of_runFor h
    exact ⟨k, hends⟩

/-- A run that would end after some calls ends after no more. -/
theorem exists_ends_of_after {k i : ℕ} (h : Ends none (s.after k) i r) :
    ∃ j ≤ k + i, ∃ r', Ends none s j r' := by
  induction k generalizing s with
  | zero => exact ⟨i, by omega, r, h⟩
  | succ k ih =>
    rw [← after_step] at h
    obtain ⟨j, hj, r', hends⟩ := ih h
    have hroom : HasRoom none s := by
      intro limit hlimit
      cases hlimit
    cases hconv : s.isConverged with
    | true => exact ⟨0, Nat.zero_le _, _, .converged hconv⟩
    | false =>
      cases hstep : s.step.1 with
      | error e => exact ⟨1, by omega, _, .failed hconv hroom hstep⟩
      | ok o => exact ⟨j + 1, by omega, r', .step hconv hroom hstep hends⟩

/-- As long as the search is open, a step is allowed and the calls succeed, a run goes on. -/
theorem ends_of_calls {k i : ℕ} (hopen : ∀ j < k, (s.after j).isConverged = false)
    (hroom : ∀ j < k, HasRoom maxSteps (s.after j))
    (hok : ∀ j < k, ∃ o, (s.after j).step.1 = .ok o) (h : Ends maxSteps (s.after k) i r) :
    Ends maxSteps s (k + i) r := by
  induction k generalizing s with
  | zero => simpa using h
  | succ k ih =>
    obtain ⟨o, ho⟩ := hok 0 (Nat.succ_pos k)
    rw [← after_step] at h
    have hrest : Ends maxSteps s.step.2 (k + i) r := by
      apply ih _ _ _ h
      · intro j hj
        simpa [after_step] using hopen (j + 1) (Nat.succ_lt_succ hj)
      · intro j hj
        simpa [after_step] using hroom (j + 1) (Nat.succ_lt_succ hj)
      · intro j hj
        simpa [after_step] using hok (j + 1) (Nat.succ_lt_succ hj)
    rw [Nat.succ_add]
    exact .step (hopen 0 (Nat.succ_pos k)) (hroom 0 (Nat.succ_pos k)) ho hrest

/-- A run ends in one way. -/
theorem Ends.unique {k k' : ℕ} {r' : Except SearchError SearchOutcome} (h : Ends maxSteps s k r)
    (h' : Ends maxSteps s k' r') : k = k' ∧ r = r' := by
  induction h generalizing k' with
  | converged hconv =>
    cases h' with
    | converged _ => exact ⟨rfl, rfl⟩
    | limit hopen _ _ => simp [hconv] at hopen
    | failed hopen _ _ => simp [hconv] at hopen
    | step hopen _ _ _ => simp [hconv] at hopen
  | limit hopen hlimit hle =>
    cases h' with
    | converged hconv => simp [hopen] at hconv
    | limit _ hlimit' _ => simpa [hlimit] using hlimit'
    | failed _ hroom _ => exact absurd (hroom _ hlimit) (Nat.not_lt_of_le hle)
    | step _ hroom _ _ => exact absurd (hroom _ hlimit) (Nat.not_lt_of_le hle)
  | failed hopen hroom hstep =>
    cases h' with
    | converged hconv => simp [hopen] at hconv
    | limit _ hlimit hle => exact absurd (hroom _ hlimit) (Nat.not_lt_of_le hle)
    | failed _ _ hstep' => simpa [hstep] using hstep'
    | step _ _ hstep' _ => simp [hstep] at hstep'
  | step hopen hroom hstep _ ih =>
    cases h' with
    | converged hconv => simp [hopen] at hconv
    | limit _ hlimit hle => exact absurd (hroom _ hlimit) (Nat.not_lt_of_le hle)
    | failed _ _ hstep' => simp [hstep] at hstep'
    | step _ _ _ hrest' =>
      obtain ⟨rfl, rfl⟩ := ih hrest'
      exact ⟨rfl, rfl⟩

/-- Until its end a run has not converged. -/
theorem Ends.open_before {k : ℕ} (h : Ends maxSteps s k r) :
    ∀ i < k, (s.after i).isConverged = false := by
  induction h with
  | converged => exact fun i hi => absurd hi (Nat.not_lt_zero i)
  | limit => exact fun i hi => absurd hi (Nat.not_lt_zero i)
  | failed hopen _ _ =>
    intro i hi
    obtain rfl := Nat.lt_one_iff.mp hi
    exact hopen
  | step hopen _ _ _ ih =>
    intro i hi
    cases i with
    | zero => exact hopen
    | succ i =>
      rw [← after_step]
      exact ih i (Nat.lt_of_succ_lt_succ hi)

/-- A run ends where the search has converged, at the limit, or at the first call that
answers with an error. -/
theorem Ends.cause {k : ℕ} (h : Ends maxSteps s k r) :
    ((s.after k).isConverged = true ∧ r = .ok (s.after k).outcome) ∨
      (∃ limit, maxSteps = some limit ∧ r = .error (.stepLimitExceeded limit)) ∨
      ∃ j e, k = j + 1 ∧ r = .error e ∧ (s.after j).step.1 = .error e ∧
        ∀ i < j, ∃ o, (s.after i).step.1 = .ok o := by
  induction h with
  | converged hconv => exact .inl ⟨hconv, rfl⟩
  | limit _ hlimit _ => exact .inr (.inl ⟨_, hlimit, rfl⟩)
  | failed _ _ hstep =>
    exact .inr (.inr ⟨0, _, rfl, rfl, hstep, fun i hi => absurd hi (Nat.not_lt_zero i)⟩)
  | @step s o k r _ _ hstep _ ih =>
    rw [after_step] at ih
    obtain hconv | hlimit | ⟨j, e, rfl, rfl, he, hok⟩ := ih
    · exact .inl hconv
    · exact .inr (.inl hlimit)
    · rw [after_step] at he
      refine .inr (.inr ⟨j + 1, e, rfl, rfl, he, fun i hi => ?_⟩)
      cases i with
      | zero => exact ⟨o, hstep⟩
      | succ i =>
        rw [← after_step]
        exact hok i (Nat.lt_of_succ_lt_succ hi)

/-- A run that succeeds ends where the search has converged. -/
theorem exists_converged_of_run {o : SearchOutcome} (h : s.run maxSteps = some (.ok o)) :
    ∃ k, Ends maxSteps s k (.ok o) ∧ (s.after k).isConverged = true ∧ o = (s.after k).outcome := by
  obtain ⟨k, hends⟩ := exists_ends_of_run h
  obtain ⟨hconv, ho⟩ | ⟨_, _, ho⟩ | ⟨_, _, _, ho, _⟩ := hends.cause
  · exact ⟨k, hends, hconv, Except.ok.inj ho⟩
  · cases ho
  · cases ho

/-- Until the end of a run its trajectory has not converged. -/
lemma Ends.open_trail {detect : Bool} {k : ℕ} (h : Ends maxSteps (start p pool detect) k r)
    {i : ℕ} (hi : i < k) : p.parities < (trail p pool i).pool.length :=
  start_open_after.mp (h.open_before i hi)

/-- While the search is open the detector, if there is one, has seen the states of the
trajectory. -/
theorem start_after_detector (hpool : p.Accepts pool) (detect : Bool) {k : ℕ}
    (hopen : ∀ i < k, p.parities < (trail p pool i).pool.length) :
    ((start p pool detect).after k).detector =
      if detect then some (Detector.watch (trail p pool) k) else none := by
  induction k with
  | zero => rfl
  | succ k ih =>
    have hdetector := ih fun i hi => hopen i (Nat.lt_succ_of_lt hi)
    obtain ⟨move, hcall⟩ := start_step hpool detect (hopen k (Nat.lt_succ_self k))
    rw [after_succ, hcall]
    simp only [hdetector]
    cases detect <;> rfl

/-- A call of an open search answers with the move or, where a detector reports, with the
report. -/
theorem start_step_answer (hpool : p.Accepts pool) (detect : Bool) {k : ℕ}
    (hopen : ∀ i ≤ k, p.parities < (trail p pool i).pool.length) :
    ∃ move, ((start p pool detect).after k).step.1 =
      match (if detect then Detector.reportAt (trail p pool) k else none) with
      | none => .ok (.moved move)
      | some period =>
        .error (.oscillating (((start p pool detect).after k).statistics.steps + 1) period) := by
  obtain ⟨move, hcall⟩ := start_step hpool detect (hopen k (le_refl k))
  have hdetector := start_after_detector hpool detect fun i hi => hopen i (Nat.le_of_lt hi)
  refine ⟨move, ?_⟩
  rw [hcall]
  simp only [report?, hdetector]
  cases detect <;> rfl

/-- The only error of a call is a report of the detector. -/
theorem report_of_call_error (hpool : p.Accepts pool) {detect : Bool} {k : ℕ} {e : SearchError}
    (hopen : ∀ i ≤ k, p.parities < (trail p pool i).pool.length)
    (h : ((start p pool detect).after k).step.1 = .error e) :
    detect = true ∧ ∃ step period, e = .oscillating step period ∧
      Detector.reportAt (trail p pool) k = some period := by
  obtain ⟨move, hanswer⟩ := start_step_answer hpool detect hopen
  rw [hanswer] at h
  cases detect with
  | false => cases h
  | true =>
    refine ⟨rfl, ?_⟩
    rw [if_pos rfl] at h
    cases hreport : Detector.reportAt (trail p pool) k with
    | none => rw [hreport] at h; cases h
    | some period =>
      rw [hreport] at h
      cases h
      exact ⟨_, period, rfl, rfl⟩

theorem call_error_of_report (hpool : p.Accepts pool) {k period : ℕ}
    (hopen : ∀ i ≤ k, p.parities < (trail p pool i).pool.length)
    (h : Detector.reportAt (trail p pool) k = some period) :
    ∃ step, ((start p pool true).after k).step.1 = .error (.oscillating step period) := by
  obtain ⟨move, hanswer⟩ := start_step_answer hpool true hopen
  rw [if_pos rfl, h] at hanswer
  exact ⟨_, hanswer⟩

end FlatXor.Search
