import FlatXor.Proofs.Replay

/-!
# What the statistics tell

The counters of a search and its stack keep one account: a selection is one entry more and a
step back one fewer. The peak is a maximum over all steps so far. Since a search takes back one
selection at a time and then covers, the peak is still the height of the stack, or one more
right after a step back. For the same reason each step back but the first can be charged to the
cover that follows the one before it, and the first one to the cover that begins the search.
-/
namespace FlatXor

/-- The number of selections that a move takes back. -/
def Move.undone : Move → ℕ
  | .cover _ => 0
  | .rollover _ => 0
  | .backtrack _ => 1

namespace SearchState

variable {p : CodeParams} {pool : Pool} {s s' : SearchState} {move : Move} {undone : ℕ}
  {st : Statistics}

/-- The statistics account for a state whose latest step took back `undone` selections. -/
structure Tally (p : CodeParams) (s : SearchState) (undone : ℕ) (st : Statistics) : Prop where
  steps_eq : st.steps = st.covers + st.rollovers + st.backtracks
  selections_eq : st.covers + st.rollovers = st.backtracks + s.used.length
  backtracks_le : st.backtracks ≤ st.covers
  /-- There is a cover to which the next step back can be charged. -/
  backtracks_lt : undone = 0 → s.used ≠ [] → st.backtracks < st.covers
  peak_eq : st.peakUsed = s.used.length + undone
  undone_cases : undone = 0 ∨ (undone = 1 ∧ Ready p s)

lemma tally_start (p : CodeParams) (pool : Pool) : Tally p (start p pool) 0 .zero where
  steps_eq := rfl
  selections_eq := rfl
  backtracks_le := Nat.le_refl 0
  backtracks_lt := fun _ hne => absurd rfl hne
  peak_eq := rfl
  undone_cases := .inl rfl

/-- Where the next move is not a cover, the latest step took nothing back, and the next step
back can be charged to a cover. -/
lemma Tally.charged (ht : Tally p s undone st) (hs : Sound p pool s)
    (hopen : p.parities < s.pool.length) (h : Step p s move s') (hmove : ∀ c, move ≠ .cover c) :
    undone = 0 ∧ st.backtracks < st.covers := by
  have hnot : ¬ Ready p s := by
    intro hready
    obtain ⟨c, hc⟩ := hready.exists_cover h
    exact hmove c hc
  have hundone : undone = 0 := ht.undone_cases.resolve_right fun h => hnot h.2
  exact ⟨hundone, ht.backtracks_lt hundone ((hs.movable hopen).resolve_left hnot)⟩

/-- After a selection there is nothing undone, and a cover stands ready to be charged. -/
lemma tally_of_selection (hsteps : st.steps = st.covers + st.rollovers + st.backtracks)
    (hselections : st.covers + st.rollovers = st.backtracks + s.used.length)
    (hlt : st.backtracks < st.covers) (hpeak : st.peakUsed = s.used.length) : Tally p s 0 st where
  steps_eq := hsteps
  selections_eq := hselections
  backtracks_le := Nat.le_of_lt hlt
  backtracks_lt := fun _ _ => hlt
  peak_eq := hpeak
  undone_cases := .inl rfl

/-- A step and what is counted for it keep the account. -/
theorem Tally.step (ht : Tally p s undone st) (hpool : p.Accepts pool) (hs : Sound p pool s)
    (hopen : p.parities < s.pool.length) (h : Step p s move s') :
    Tally p s' move.undone ((st.countStep.countMove move).recordDepth s'.used.length) := by
  have hsteps := ht.steps_eq
  have hselections := ht.selections_eq
  have hpeak := ht.peak_eq
  cases move with
  | cover c =>
    have hlen : s'.used.length = s.used.length + 1 := congrArg List.length h.used_of_cover
    have hle := ht.backtracks_le
    have hundone : undone ≤ 1 := by
      obtain h | h := ht.undone_cases <;> omega
    apply tally_of_selection <;>
      simp only [Statistics.countStep, Statistics.countMove, Statistics.recordDepth] <;> omega
  | rollover c =>
    have hlen : s'.used.length = s.used.length + 1 := congrArg List.length h.used_of_rollover
    obtain ⟨hundone, hlt⟩ := ht.charged hs hopen h (by simp)
    apply tally_of_selection <;>
      simp only [Statistics.countStep, Statistics.countMove, Statistics.recordDepth] <;> omega
  | backtrack c =>
    have hlen : s.used.length = s'.used.length + 1 := congrArg List.length h.used_of_backtrack
    obtain ⟨hundone, hlt⟩ := ht.charged hs hopen h (by simp)
    have hmem : c ∈ pool := hs.mem_of_mem_used (by simp [h.used_of_backtrack])
    exact {
      steps_eq := by
        simp only [Statistics.countStep, Statistics.countMove, Statistics.recordDepth]
        omega
      selections_eq := by
        simp only [Statistics.countStep, Statistics.countMove, Statistics.recordDepth]
        omega
      backtracks_le := hlt
      backtracks_lt := fun hzero => absurd hzero (Nat.succ_ne_zero 0)
      -- the stack was higher by one before this step, and no higher before that
      peak_eq := by
        simp only [Statistics.countStep, Statistics.countMove, Statistics.recordDepth, Move.undone]
        omega
      undone_cases := .inr ⟨rfl, h.ready_of_backtrack (size_eq_of_accepts hpool hmem)⟩ }

end SearchState

namespace Search

open SearchState (Tally trail)

/-- The number of selections that the latest of `k` calls took back. -/
def undone (s : Search) : ℕ → ℕ
  | 0 => 0
  | k + 1 =>
    match s.moveAt k with
    | some move => move.undone
    | none => 0

variable {p : CodeParams} {pool : Pool} {detect : Bool} {k : ℕ}

/-- A search that is over has not just taken a selection back. -/
lemma undone_of_converged (hpool : p.Accepts pool)
    (hconv : (trail p pool k).pool.length ≤ p.parities) : (start p pool detect).undone k = 0 := by
  cases k with
  | zero => rfl
  | succ j =>
    cases hmove : (start p pool detect).moveAt j with
    | none => simp [undone, hmove]
    | some move =>
      obtain ⟨hopen, hstep⟩ := start_moveAt_eq_some_iff.mp hmove
      cases move with
      | cover c => simp [undone, hmove, Move.undone]
      | rollover c => simp [undone, hmove, Move.undone]
      | backtrack c =>
        have hspare := (SearchState.resumed_of_backtrack hpool hopen hstep).spare
        omega

/-- The account holds after any number of calls. -/
theorem tally_after (hpool : p.Accepts pool) (detect : Bool) (k : ℕ) :
    Tally p (trail p pool k) ((start p pool detect).undone k)
      ((start p pool detect).after k).statistics := by
  induction k with
  | zero => exact SearchState.tally_start p pool
  | succ k ih =>
    by_cases hopen : p.parities < (trail p pool k).pool.length
    · obtain ⟨move, hstep⟩ := SearchState.exists_step_trail hpool hopen
      have hmove : (start p pool detect).moveAt k = some move :=
        start_moveAt_eq_some_iff.mpr ⟨hopen, hstep⟩
      have hnext := ih.step hpool (SearchState.sound_trail hpool k) hopen hstep
      rw [statistics_succ hmove, start_after_state, undone, hmove]
      exact hnext
    · have hconv := Nat.le_of_not_lt hopen
      have hstill : trail p pool (k + 1) = trail p pool k := by
        rw [SearchState.trail_succ, SearchState.next_of_converged hconv]
      have hsame : ((start p pool detect).after (k + 1)) = (start p pool detect).after k := by
        rw [after_succ, step_of_converged (start_isConverged_after.mpr hconv)]
      rw [undone_of_converged hpool hconv] at ih
      rw [undone_of_converged hpool (hstill ▸ hconv), hstill, hsame]
      exact ih

/-- The statistics are exact. Each step is counted as one of three kinds, the selections are as
many as the steps back and the entries of the stack together, and there are no more steps back
than covers. The peak is the height of the stack, or one more right after a step back. So a run
that succeeds has its highest stack at the end, with all candidates that are not in the final
pool, and takes two more steps for each selection that it takes back. -/
theorem statistics_account {p : CodeParams} {pool : Pool} {detect : Bool} {s : Search}
    (hs : Begins p detect pool s) :
    (∀ k,
      (s.after k).statistics.steps = (s.after k).statistics.covers +
        (s.after k).statistics.rollovers + (s.after k).statistics.backtracks ∧
      (s.after k).statistics.covers + (s.after k).statistics.rollovers =
        (s.after k).statistics.backtracks + (s.after k).state.used.length ∧
      (s.after k).statistics.backtracks ≤ (s.after k).statistics.covers ∧
      (s.after k).statistics.peakUsed = (s.after k).state.used.length + s.undone k) ∧
    ∀ maxSteps o, s.run maxSteps = some (.ok o) →
      o.statistics.peakUsed = o.used.length ∧
      o.used.length = pool.length - o.pool.length ∧
      o.statistics.steps = (pool.length - o.pool.length) + 2 * o.statistics.backtracks := by
  have hpool := hs.accepts
  rw [hs.eq_start]
  constructor
  · intro k
    have ht := tally_after hpool detect k
    rw [start_after_state]
    exact ⟨ht.steps_eq, ht.selections_eq, ht.backtracks_le, ht.peak_eq⟩
  · intro maxSteps o hrun
    obtain ⟨k, -, hconv, rfl⟩ := exists_converged_of_run hrun
    have hconv := start_isConverged_after.mp hconv
    have ht := tally_after hpool detect k
    have hlen := (SearchState.sound_trail hpool k).length_add
    have hpeak := ht.peak_eq
    rw [undone_of_converged hpool hconv] at hpeak
    have hsteps := ht.steps_eq
    have hselections := ht.selections_eq
    simp only [outcome, start_after_state]
    omega

/-- The search of all pairs of six parities takes two of its selections back. Right after the
first of them the peak is one above the stack. At the end the stack holds nine of the fifteen
pairs, after thirteen steps. -/
theorem sixTwo_account :
    Begins sixTwo true sixTwo.candidates (ofParams sixTwo true) ∧
      (ofParams sixTwo true).moveAt 5 = some (.backtrack ⟨10⟩) ∧
      ((ofParams sixTwo true).after 6).statistics.peakUsed =
        ((ofParams sixTwo true).after 6).state.used.length + 1 ∧
      ∃ o, (ofParams sixTwo true).run none = some (.ok o) ∧
        o.pool.length = 6 ∧ o.statistics.backtracks = 2 ∧
        o.statistics.peakUsed = o.used.length ∧ o.used.length = 15 - 6 ∧
        o.statistics.steps = (15 - 6) + 2 * 2 := by
  have hback : (ofParams sixTwo true).moveAt 5 = some (.backtrack ⟨10⟩) := by decide +kernel
  have hrun : (ofParams sixTwo true).run none =
      some (.ok ((ofParams sixTwo true).after 13).outcome) := by
    decide +kernel
  have hcount : sixTwo.candidates.length = 15 := by decide +kernel
  have hpool : ((ofParams sixTwo true).after 13).outcome.pool.length = 6 := by decide +kernel
  have hbacktracks : ((ofParams sixTwo true).after 13).outcome.statistics.backtracks = 2 := by
    decide +kernel
  obtain ⟨hafter, houtcome⟩ := statistics_account .ofParams
  obtain ⟨-, -, -, hpeak⟩ := hafter 6
  obtain ⟨htop, hused, hsteps⟩ := houtcome none _ hrun
  rw [hcount, hpool] at hused hsteps
  rw [hbacktracks] at hsteps
  exact ⟨.ofParams, hback, hpeak, _, hrun, hpool, hbacktracks, htop, hused, hsteps⟩

end Search

end FlatXor
