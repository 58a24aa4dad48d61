import FlatXor.Proofs.Course
import FlatXor.Proofs.FirstReport
import FlatXor.Proofs.OscillationShape
import FlatXor.Proofs.Termination

/-!
# When a run stops

The course of a search is the same under all limits, with and without a detector. A run
follows it to the first of three places: where the search has converged, where the limit
is reached, or where the detector reports. There is no fourth, because a search that is
not over always has a selection to make or one to take back.
-/
namespace FlatXor.Search

open SearchState (trail SticksAt)

variable {p : CodeParams} {pool : Pool} {maxSteps : Option ℕ} {detect : Bool}

/-- A call is never at a loss for a move. -/
theorem step_ne_exhausted (hpool : p.Accepts pool) (detect : Bool) (k n : ℕ) :
    ((start p pool detect).after k).step.1 ≠ .error (.exhausted n) := by
  intro h
  by_cases hopen : p.parities < (trail p pool k).pool.length
  · obtain ⟨move, hcall⟩ := start_step hpool detect hopen
    rw [hcall] at h
    cases hreport : ((start p pool detect).after k).report? (trail p pool (k + 1)) with
    | none => simp [hreport] at h
    | some period => simp [hreport] at h
  · have hconv : ((start p pool detect).after k).isConverged = true :=
      start_isConverged_after.mpr (Nat.le_of_not_lt hopen)
    simp [step_of_converged hconv] at h

/-- No run, from any state that the calls go through, ends for want of a move. -/
theorem not_ends_exhausted (hpool : p.Accepts pool) {k i n : ℕ} :
    ¬ Ends maxSteps ((start p pool detect).after k) i (.error (.exhausted n)) := by
  intro hends
  obtain ⟨-, hr⟩ | ⟨limit, -, hr⟩ | ⟨j, e, -, hr, hcall, -⟩ := hends.cause
  · cases hr
  · cases hr
  · cases hr
    rw [← after_add] at hcall
    exact step_ne_exhausted hpool detect (k + j) n hcall

/-- A search never gives up for want of a move: not in any call, also after a report of
oscillation, and not in any run, from the start or later. Where nothing in the pool can be
selected, there is a selection to take back. -/
theorem never_exhausted {p : CodeParams} {pool : Pool} {detect : Bool} {s : Search}
    (hs : Begins p detect pool s) (k : ℕ) :
    (∀ n, (s.after k).step.1 ≠ .error (.exhausted n)) ∧
      (∀ maxSteps n, (s.after k).run maxSteps ≠ some (.error (.exhausted n))) ∧
      (∀ maxSteps i n, ¬ Ends maxSteps (s.after k) i (.error (.exhausted n))) ∧
      ((s.after k).isConverged = false → (s.after k).state.select? p = none →
        (s.after k).state.used ≠ []) := by
  have hpool := hs.accepts
  rw [hs.eq_start]
  refine ⟨?_, ?_, ?_, ?_⟩
  · exact step_ne_exhausted hpool detect k
  · intro maxSteps n hrun
    obtain ⟨i, hends⟩ := exists_ends_of_run hrun
    exact not_ends_exhausted hpool hends
  · intro maxSteps i n hends
    exact not_ends_exhausted hpool hends
  · intro hopen hnone hused
    rw [start_after_state] at hnone hused
    obtain ⟨move, hstep⟩ := SearchState.exists_step_trail hpool (start_open_after.mp hopen)
    have hmove := SearchState.advance?_of_step hstep
    simp [SearchState.advance?_eq_none_iff.mpr
      ⟨SearchState.select?_eq_none_iff.mp hnone, hused⟩] at hmove

/-- Of five equal candidates one is selected, and then none can follow it. -/
theorem fiveEqual_not_exhausted :
    Begins fiveEqual.params true fiveEqual.state.pool fiveEqual ∧
      (fiveEqual.after 1).isConverged = false ∧
      (fiveEqual.after 1).state.select? fiveEqual.params = none ∧
      (fiveEqual.after 1).state.used ≠ [] := by
  have hopen : (fiveEqual.after 1).isConverged = false := by decide +kernel
  have hnone : (fiveEqual.after 1).state.select? fiveEqual.params = none := by decide +kernel
  exact ⟨begins_fiveEqual, hopen, hnone, (never_exhausted begins_fiveEqual 1).2.2.2 hopen hnone⟩

/-- A converging search is never reported. -/
theorem reportAt_eq_none_of_converges {T : ℕ} (hconv : (trail p pool T).pool.length ≤ p.parities)
    (hopen : ∀ i < T, p.parities < (trail p pool i).pool.length) :
    ∀ i < T, Detector.reportAt (trail p pool) i = none := by
  intro i
  induction i using Nat.strong_induction_on with
  | h i ih =>
    intro hi
    by_contra hne
    obtain ⟨period, hreport⟩ := Option.ne_none_iff_exists'.mp hne
    have hquiet : ∀ j < i, Detector.reportAt (trail p pool) j = none :=
      fun j hj => ih j hj (by omega)
    -- a report means that a state has recurred before the search is over
    obtain ⟨a, ha, hpos, hreturn, -⟩ := Detector.first_report hquiet hreport
    have hnever := SearchState.open_of_recurs hpos hreturn (hopen a (by omega)) T
    omega

/-- A run follows the open course of the search as far as the limit allows and the
detector, if there is one, is silent. -/
theorem ends_of_trail (hpool : p.Accepts pool) {k i : ℕ} {r : Except SearchError SearchOutcome}
    (hopen : ∀ j < k, p.parities < (trail p pool j).pool.length)
    (hquiet : detect = true → ∀ j < k, Detector.reportAt (trail p pool) j = none)
    (hlimit : ∀ limit, maxSteps = some limit → k ≤ limit)
    (h : Ends maxSteps ((start p pool detect).after k) i r) :
    Ends maxSteps (start p pool detect) (k + i) r := by
  apply ends_of_calls _ _ _ h
  · intro j hj
    exact start_open_after.mpr (hopen j hj)
  · intro j hj limit hmax
    have hsteps := start_after_steps hpool detect (k := j) fun i hi => hopen i (by omega)
    have := hlimit limit hmax
    omega
  · intro j hj
    obtain ⟨move, hanswer⟩ := start_step_answer hpool detect (k := j)
      fun i hi => hopen i (by omega)
    cases detect with
    | false => exact ⟨_, hanswer⟩
    | true =>
      rw [if_pos rfl, hquiet rfl j hj] at hanswer
      exact ⟨_, hanswer⟩

theorem ends_converged (hpool : p.Accepts pool) (detect : Bool) {T : ℕ}
    (hconv : (trail p pool T).pool.length ≤ p.parities)
    (hopen : ∀ i < T, p.parities < (trail p pool i).pool.length)
    (hlimit : ∀ limit, maxSteps = some limit → T ≤ limit) :
    Ends maxSteps (start p pool detect) T (.ok ((start p pool detect).after T).outcome) :=
  ends_of_trail hpool hopen (fun _ => reportAt_eq_none_of_converges hconv hopen) hlimit
    (.converged (start_isConverged_after.mpr hconv))

theorem ends_at_limit (hpool : p.Accepts pool) {limit : ℕ}
    (hopen : ∀ i ≤ limit, p.parities < (trail p pool i).pool.length)
    (hquiet : detect = true → ∀ i < limit, Detector.reportAt (trail p pool) i = none) :
    Ends (some limit) (start p pool detect) limit (.error (.stepLimitExceeded limit)) := by
  have hbefore : ∀ i < limit, p.parities < (trail p pool i).pool.length :=
    fun i hi => hopen i (Nat.le_of_lt hi)
  have hsteps := start_after_steps hpool detect hbefore
  refine ends_of_trail hpool hbefore hquiet ?_ (.limit ?_ rfl (Nat.le_of_eq hsteps.symm))
  · intro limit' heq
    cases heq
    exact Nat.le_refl limit
  · exact start_open_after.mpr (hopen limit (Nat.le_refl limit))

theorem ends_reported (hpool : p.Accepts pool) {k period : ℕ}
    (hopen : ∀ i ≤ k, p.parities < (trail p pool i).pool.length)
    (hquiet : ∀ i < k, Detector.reportAt (trail p pool) i = none)
    (hreport : Detector.reportAt (trail p pool) k = some period)
    (hlimit : ∀ limit, maxSteps = some limit → k + 1 ≤ limit) :
    Ends maxSteps (start p pool true) (k + 1) (.error (.oscillating (k + 1) period)) := by
  have hbefore : ∀ i < k, p.parities < (trail p pool i).pool.length :=
    fun i hi => hopen i (Nat.le_of_lt hi)
  have hsteps := start_after_steps hpool true hbefore
  obtain ⟨move, hanswer⟩ := start_step_answer hpool true hopen
  rw [if_pos rfl, hreport, hsteps] at hanswer
  refine ends_of_trail hpool hbefore (fun _ => hquiet) ?_ (.failed ?_ ?_ hanswer)
  · intro limit hmax
    have := hlimit limit hmax
    omega
  · exact start_open_after.mpr (hopen k (Nat.le_refl k))
  · intro limit hmax
    have := hlimit limit hmax
    omega

/-- The loop has enough rounds for a run that ends within the limit or, without one, in
time. -/
theorem run_of_ends {k : ℕ} {r : Except SearchError SearchOutcome}
    (h : Ends maxSteps (start p pool detect) k r)
    (hlimit : ∀ limit, maxSteps = some limit → k ≤ limit)
    (hbound : maxSteps = none → k ≤ detectionBound p.parities pool.length) :
    (start p pool detect).run maxSteps = some r := by
  cases maxSteps with
  | some limit =>
    have := hlimit limit rfl
    exact runFor_of_ends h (by omega)
  | none =>
    have hrounds : k < detectionBound p.parities pool.length + 1 :=
      Nat.lt_succ_of_le (hbound rfl)
    exact runFor_of_ends h hrounds

/-- A search that is open and silent up to the limit is run to the limit. -/
theorem run_at_limit (hpool : p.Accepts pool) {limit : ℕ}
    (hopen : ∀ i ≤ limit, p.parities < (trail p pool i).pool.length)
    (hquiet : detect = true → ∀ i < limit, Detector.reportAt (trail p pool) i = none) :
    (start p pool detect).run (some limit) = some (.error (.stepLimitExceeded limit)) := by
  apply run_of_ends (ends_at_limit hpool hopen hquiet)
  · intro limit' heq
    cases heq
    exact Nat.le_refl limit
  · intro heq
    cases heq

/-- The states of a search that never converges repeat. -/
theorem exists_lasso_of_open (hpool : p.Accepts pool)
    (hopen : ∀ i, p.parities < (trail p pool i).pool.length) :
    ∃ tail period, Detector.Lasso (trail p pool) tail period := by
  obtain ⟨k, -, hconv⟩ | ⟨k, -, hsticks⟩ := SearchState.converges_or_sticks hpool
  · exact absurd (hopen k) (Nat.not_lt_of_le hconv)
  · have hpos := SearchState.queue_length_pos (hsticks.resumed hpool)
    have hrepeats : Detector.Repeats (trail p pool)
        (k + 1 + 2 * (trail p pool (k + 1)).queue.length)
        (2 * (trail p pool (k + 1)).queue.length) :=
      ⟨by omega, fun j hj => hsticks.trail_add_round hpool hj⟩
    exact hrepeats.exists_lasso

/-- A run of a search that converges ends there, or at a limit before it. -/
theorem run_of_converges (hpool : p.Accepts pool) (detect : Bool) {T : ℕ}
    (hconv : (trail p pool T).pool.length ≤ p.parities)
    (hopen : ∀ i < T, p.parities < (trail p pool i).pool.length) :
    ((∀ limit, maxSteps = some limit → T ≤ limit) →
      (start p pool detect).run maxSteps = some (.ok ((start p pool detect).after T).outcome)) ∧
    ∀ limit, maxSteps = some limit → limit < T →
      (start p pool detect).run maxSteps = some (.error (.stepLimitExceeded limit)) := by
  constructor
  · intro hlimit
    refine run_of_ends (ends_converged hpool detect hconv hopen hlimit) hlimit fun _ => ?_
    -- the first step at which the search has converged is no later than any other
    obtain ⟨j, hj, hconv'⟩ := converges_in_time hpool hconv
    have hT : T ≤ j := by
      by_contra hlt
      have := hopen j (by omega)
      omega
    have hbound : j ≤ convergenceBound p.parities pool.length := hj
    unfold detectionBound
    omega
  · rintro limit rfl hlt
    have hquiet : ∀ i < limit, Detector.reportAt (trail p pool) i = none :=
      fun i hi => reportAt_eq_none_of_converges hconv hopen i (by omega)
    exact run_at_limit hpool (fun i hi => hopen i (by omega)) fun _ => hquiet

/-- A run of a search that never converges ends with the first report of its detector, or
at a limit before it. Without either it has no end. -/
theorem run_of_lasso (hpool : p.Accepts pool) (detect : Bool) {tail period e : ℕ}
    (hopen : ∀ i, p.parities < (trail p pool i).pool.length)
    (h : Detector.Lasso (trail p pool) tail period)
    (he : IsLeast {e | max (tail + 1) period ≤ 2 ^ e} e) :
    (detect = true → (∀ limit, maxSteps = some limit → 2 ^ e - 1 + period ≤ limit) →
      (start p pool detect).run maxSteps =
        some (.error (.oscillating (2 ^ e - 1 + period) period))) ∧
    (∀ limit, maxSteps = some limit → detect = false ∨ limit < 2 ^ e - 1 + period →
      (start p pool detect).run maxSteps = some (.error (.stepLimitExceeded limit))) ∧
    (detect = false → maxSteps = none → (start p pool detect).run maxSteps = none) := by
  obtain ⟨k, hk, hquiet, hreport⟩ := h.first_report he
  rw [← hk]
  refine ⟨?_, ?_, ?_⟩
  · rintro rfl hlimit
    have hends := ends_reported hpool (fun i _ => hopen i) hquiet hreport hlimit
    refine run_of_ends hends hlimit ?_
    rintro rfl
    obtain ⟨i, hi, r, hends'⟩ := exists_ends hpool
    obtain ⟨rfl, -⟩ := hends.unique hends'
    exact hi
  · rintro limit rfl hcause
    have hsilent : detect = true → ∀ i < limit, Detector.reportAt (trail p pool) i = none := by
      rintro rfl i hi
      obtain hoff | hlt := hcause
      · cases hoff
      · exact hquiet i (by omega)
    exact run_at_limit hpool (fun i _ => hopen i) hsilent
  · rintro rfl rfl
    by_contra hne
    obtain ⟨r, hrun⟩ := Option.ne_none_iff_exists'.mp hne
    obtain ⟨i, hends⟩ := exists_ends_of_run hrun
    obtain ⟨hconv, -⟩ | ⟨limit, hlimit, -⟩ | ⟨j, e', -, -, hcall, -⟩ := hends.cause
    · have := start_isConverged_after.mp hconv
      have := hopen i
      omega
    · cases hlimit
    · obtain ⟨hoff, -⟩ := report_of_call_error hpool (fun i _ => hopen i) hcall
      cases hoff

/-- The code with six parities and weight two. -/
def sixTwo : CodeParams := ⟨6, .two, by decide, by decide⟩

end FlatXor.Search
