import FlatXor.Proofs.Circle
import FlatXor.Proofs.RunLoop

/-!
# How long a search runs

With a detector every run ends. A search that converges does so while its stack
grows the `n - m` times that it can, each time within a round of trials. A search
that sticks is on its circle as soon, and the detector needs at most as long again
and one turn of the circle to report it.
-/
namespace FlatXor.Search

open SearchState (trail SticksAt)

variable {p : CodeParams} {pool : Pool}

/-- A search that sticks in time is reported in time. -/
theorem exists_report_of_sticks (hpool : p.Accepts pool) {k bound : ℕ}
    (hk : k + 2 * pool.length < bound) (h : SticksAt p pool k) :
    ∃ j < 2 * bound + 2 * pool.length, Detector.reportAt (trail p pool) j ≠ none := by
  have hpos := SearchState.queue_length_pos (h.resumed hpool)
  have hqueue := SearchState.length_queue_le hpool (k + 1)
  obtain ⟨j, hj, hreport⟩ := Detector.exists_report_within
    (fun _ hle => h.trail_add_round hpool hle) (by omega)
  exact ⟨j, by omega, hreport⟩

/-- A search that converges at all has not stuck, so it converges in time. -/
theorem converges_in_time (hpool : p.Accepts pool) {k : ℕ}
    (hconv : (trail p pool k).pool.length ≤ p.parities) :
    ∃ j ≤ (pool.length - p.parities) * (2 * pool.length + 1),
      (trail p pool j).pool.length ≤ p.parities := by
  obtain hin_time | ⟨j, -, hsticks⟩ := SearchState.converges_or_sticks hpool
  · exact hin_time
  · exact absurd (hsticks.open_trail hpool k) (Nat.not_lt_of_le hconv)

/-- A run without a limit, with a detector, ends in time. -/
theorem exists_ends (hpool : p.Accepts pool) :
    ∃ k ≤ 2 * ((pool.length - p.parities) * (2 * pool.length + 1)) + 2 * pool.length,
      ∃ r, Ends none (start p pool true) k r := by
  obtain ⟨k, hk, hconv⟩ | ⟨k, hk, hsticks⟩ := SearchState.converges_or_sticks hpool
  · have hends : Ends none ((start p pool true).after k) 0 _ :=
      .converged (start_isConverged_after.mpr hconv)
    obtain ⟨j, hj, r, hr⟩ := exists_ends_of_after hends
    exact ⟨j, by omega, r, hr⟩
  · obtain ⟨j, hj, hreport⟩ := exists_report_of_sticks hpool hk hsticks
    have hopen := hsticks.open_trail hpool
    obtain ⟨period, hperiod⟩ := Option.ne_none_iff_exists'.mp hreport
    obtain ⟨step, hcall⟩ := call_error_of_report hpool (fun i _ => hopen i) hperiod
    have hends : Ends none ((start p pool true).after j) 1 (.error (.oscillating step period)) := by
      refine .failed (start_open_after.mpr (hopen j)) ?_ hcall
      intro limit hlimit
      cases hlimit
    obtain ⟨i, hi, r, hr⟩ := exists_ends_of_after hends
    exact ⟨i, by omega, r, hr⟩

/-- A run without a limit ends with a result or a report of oscillation. -/
theorem Ends.ok_or_oscillating (hpool : p.Accepts pool) {k : ℕ}
    {r : Except SearchError SearchOutcome} (h : Ends none (start p pool true) k r) :
    (∃ o, r = .ok o) ∨ ∃ step period, r = .error (.oscillating step period) := by
  obtain ⟨-, rfl⟩ | ⟨limit, hlimit, -⟩ | ⟨j, e, rfl, rfl, hcall, -⟩ := h.cause
  · exact .inl ⟨_, rfl⟩
  · cases hlimit
  · have hopen : ∀ i ≤ j, p.parities < (trail p pool i).pool.length :=
      fun i hi => h.open_trail (Nat.lt_succ_of_le hi)
    obtain ⟨-, step, period, rfl, -⟩ := report_of_call_error hpool hopen hcall
    exact .inr ⟨step, period, rfl⟩

/-- With a detector and without a limit every run of a search of `n` candidates returns,
within `2 (n - m) (2 n + 1) + 2 n` steps, and either with a result or with a report of
oscillation. With or without a detector, under any limit, whatever converges does so
within `(n - m) (2 n + 1)` steps. -/
theorem run_ends_within_bound {p : CodeParams} {pool : Pool} {detect : Bool} {s : Search}
    (hs : Begins p detect pool s) :
    (detect = true →
      ∃ k ≤ 2 * ((pool.length - p.parities) * (2 * pool.length + 1)) + 2 * pool.length, ∃ r,
        Ends none s k r ∧ s.run none = some r ∧
          ((∃ o, r = .ok o) ∨ ∃ step period, r = .error (.oscillating step period))) ∧
    ((∃ k, (s.after k).isConverged = true) →
      ∃ k ≤ (pool.length - p.parities) * (2 * pool.length + 1),
        (s.after k).isConverged = true) ∧
    ∀ maxSteps k o, Ends maxSteps s k (.ok o) →
      k ≤ (pool.length - p.parities) * (2 * pool.length + 1) := by
  have hpool := hs.accepts
  rw [hs.eq_start]
  refine ⟨?_, ?_, ?_⟩
  · rintro rfl
    obtain ⟨k, hk, r, hends⟩ := exists_ends hpool
    refine ⟨k, hk, r, hends, ?_, hends.ok_or_oscillating hpool⟩
    exact runFor_of_ends hends (Nat.lt_succ_of_le hk)
  · rintro ⟨k, hconv⟩
    obtain ⟨j, hj, hconv'⟩ := converges_in_time hpool (start_isConverged_after.mp hconv)
    exact ⟨j, hj, start_isConverged_after.mpr hconv'⟩
  · intro maxSteps k o hends
    obtain ⟨hconv, -⟩ | ⟨limit, -, hr⟩ | ⟨j, e, -, hr, -⟩ := hends.cause
    · obtain ⟨j, hj, hconv'⟩ := converges_in_time hpool (start_isConverged_after.mp hconv)
      by_contra hlate
      have hopen := hends.open_before j (by omega)
      rw [start_isConverged_after.mpr hconv'] at hopen
      cases hopen
    · cases hr
    · cases hr

/-- Five equal candidates for three parities: the bound is 54 steps, and the search sticks
at once. -/
theorem fiveEqual_ends_within_bound :
    Begins fiveEqual.params true fiveEqual.state.pool fiveEqual ∧
      ∃ k ≤ 54, ∃ r, Ends none fiveEqual k r ∧ fiveEqual.run none = some r ∧
        ((∃ o, r = .ok o) ∨ ∃ step period, r = .error (.oscillating step period)) :=
  ⟨begins_fiveEqual, (run_ends_within_bound begins_fiveEqual).1 rfl⟩

end FlatXor.Search
