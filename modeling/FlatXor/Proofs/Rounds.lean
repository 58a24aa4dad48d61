import FlatXor.Proofs.Backtracking

/-!
# Coverage in rounds

A search is to cover the parities evenly, and it works in rounds to do so. Each round that
has begun asks for one selection of every parity, and the present one for a further
selection of each parity that it no longer needs. A selection adds as much to what is
asked as to what is there. So the account is exact as long as no round that has begun is
taken back. When one is, every parity is needed again, which asks for less than is there.
-/
namespace FlatXor

namespace Move

/-- Does the move begin a round? -/
def beginsRound : Move → Bool
  | cover _ => false
  | rollover _ => true
  | backtrack _ => false

/-- The selections in force after the move, latest first. -/
def update (selections : List Move) : Move → List Move
  | cover c => cover c :: selections
  | rollover c => rollover c :: selections
  | backtrack _ => selections.tail

end Move

namespace Search

/-- The moves that made the selections in force after `k` calls, latest first. -/
def selections (s : Search) : ℕ → List Move
  | 0 => []
  | k + 1 =>
    match s.moveAt k with
    | some move => move.update (s.selections k)
    | none => s.selections k

/-- The number of selections in force that began a round. -/
def rounds (s : Search) (k : ℕ) : ℕ := (s.selections k).countP Move.beginsRound

/-- The number of selections in force that contain the parity. -/
def coverage (s : Search) (k i : ℕ) : ℕ := (s.after k).state.used.countP fun c => c.contains i

/-- The number of selections of the parity that the rounds ask for. -/
def quota (s : Search) (k i : ℕ) : ℕ :=
  if i ∈ (s.after k).state.needed then s.rounds k else s.rounds k + 1

/-- Does the call after `k` others take back a selection that began a round? -/
def undoesRound (s : Search) (k : ℕ) : Bool :=
  match s.moveAt k, s.selections k with
  | some (.backtrack _), .rollover _ :: _ => true
  | _, _ => false

variable {s : Search} {k i : ℕ} {c : ParitySet}

lemma selections_of_cover (h : s.moveAt k = some (.cover c)) :
    s.selections (k + 1) = .cover c :: s.selections k := by
  simp [selections, h, Move.update]

lemma selections_of_rollover (h : s.moveAt k = some (.rollover c)) :
    s.selections (k + 1) = .rollover c :: s.selections k := by
  simp [selections, h, Move.update]

lemma selections_of_backtrack (h : s.moveAt k = some (.backtrack c)) :
    s.selections (k + 1) = (s.selections k).tail := by
  simp [selections, h, Move.update]

lemma coverage_of_used_eq_cons {j : ℕ}
    (h : (s.after j).state.used = c :: (s.after k).state.used) :
    s.coverage j i = s.coverage k i + if i ∈ c then 1 else 0 := by
  simp [coverage, h, List.countP_cons, ParitySet.contains]

lemma coverage_of_used_eq {j : ℕ} (h : (s.after j).state.used = (s.after k).state.used) :
    s.coverage j i = s.coverage k i := by
  simp [coverage, h]

section Course

open SearchState (trail Step)

variable {p : CodeParams} {pool : Pool} {detect : Bool}

/-- A selection that covers asks for one more of the parities that it covers. -/
theorem quota_of_cover (h : (start p pool detect).moveAt k = some (.cover c)) :
    (start p pool detect).quota (k + 1) i =
      (start p pool detect).quota k i + if i ∈ c then 1 else 0 := by
  obtain ⟨-, hstep⟩ := start_moveAt_eq_some_iff.mp h
  have hrounds : (start p pool detect).rounds (k + 1) = (start p pool detect).rounds k := by
    simp [rounds, selections_of_cover h, Move.beginsRound]
  have hneeded : i ∈ (trail p pool (k + 1)).needed ↔ i ∈ (trail p pool k).needed ∧ ¬ i ∈ c := by
    rw [hstep.needed_of_cover, ParitySet.mem_diff]
  have hinside := hstep.subset_of_cover i
  simp only [quota, start_after_state, hrounds, hneeded]
  by_cases hc : i ∈ c
  · simp [hc, hinside hc]
  · by_cases hi : i ∈ (trail p pool k).needed <;> simp [hc, hi]

/-- A selection that begins a round asks for one more of the parities that it contains:
of those that the old round still needed, and of those that the new one needs no more. -/
theorem quota_of_rollover (hi : i < p.parities)
    (h : (start p pool detect).moveAt k = some (.rollover c)) :
    (start p pool detect).quota (k + 1) i =
      (start p pool detect).quota k i + if i ∈ c then 1 else 0 := by
  obtain ⟨-, hstep⟩ := start_moveAt_eq_some_iff.mp h
  have hrounds : (start p pool detect).rounds (k + 1) = (start p pool detect).rounds k + 1 := by
    simp [rounds, selections_of_rollover h, List.countP_cons, Move.beginsRound]
  have hfull : i ∈ p.full := CodeParams.mem_full.mpr hi
  have hneeded : i ∈ (trail p pool (k + 1)).needed ↔ i ∈ (trail p pool k).needed ∨ ¬ i ∈ c := by
    rw [hstep.needed_of_rollover, ParitySet.mem_symmDiff, ParitySet.mem_diff]
    tauto
  have hinside := hstep.subset_of_rollover i
  simp only [quota, start_after_state, hrounds, hneeded]
  by_cases hold : i ∈ (trail p pool k).needed
  · simp [hold, hinside hold]
  · by_cases hc : i ∈ c <;> simp [hold, hc]

lemma coverage_of_selection {move : Move} (h : (start p pool detect).moveAt k = some move)
    (hmove : move = .cover c ∨ move = .rollover c) :
    (start p pool detect).coverage (k + 1) i =
      (start p pool detect).coverage k i + if i ∈ c then 1 else 0 := by
  obtain ⟨-, hstep⟩ := start_moveAt_eq_some_iff.mp h
  apply coverage_of_used_eq_cons
  rw [start_after_state, start_after_state]
  obtain rfl | rfl := hmove
  · exact hstep.used_of_cover
  · exact hstep.used_of_rollover

/-- The moves recorded are those that made the selections in force. -/
theorem map_candidate_selections (hpool : p.Accepts pool) (detect : Bool) (k : ℕ) :
    ((start p pool detect).selections k).map Move.candidate = (trail p pool k).used := by
  induction k with
  | zero => rfl
  | succ k ih =>
    by_cases hopen : p.parities < (trail p pool k).pool.length
    · obtain ⟨move, hstep⟩ := SearchState.exists_step_trail hpool hopen
      have h : (start p pool detect).moveAt k = some move :=
        start_moveAt_eq_some_iff.mpr ⟨hopen, hstep⟩
      cases move with
      | cover c =>
        rw [selections_of_cover h, List.map_cons, ih, hstep.used_of_cover]
        rfl
      | rollover c =>
        rw [selections_of_rollover h, List.map_cons, ih, hstep.used_of_rollover]
        rfl
      | backtrack c =>
        rw [selections_of_backtrack h, List.map_tail, ih, hstep.used_of_backtrack, List.tail_cons]
    · have hnone : (start p pool detect).moveAt k = none :=
        start_moveAt_eq_none (Nat.le_of_not_lt hopen)
      rw [SearchState.trail_succ, SearchState.next_of_converged (Nat.le_of_not_lt hopen), ← ih]
      simp [selections, hnone]

/-- A step back that follows a selection leaves the selections that there were before. -/
lemma used_of_undone {j : ℕ} {move : Move}
    (h : Step p (trail p pool j) move (trail p pool (j + 1)))
    (hmove : move = .cover c ∨ move = .rollover c)
    (hback : Step p (trail p pool (j + 1)) (.backtrack c) (trail p pool (j + 1 + 1))) :
    (trail p pool (j + 1 + 1)).used = (trail p pool j).used := by
  have hpush : (trail p pool (j + 1)).used = c :: (trail p pool j).used := by
    obtain rfl | rfl := hmove
    · exact h.used_of_cover
    · exact h.used_of_rollover
  have hpop := hback.used_of_backtrack
  rw [hpush] at hpop
  exact (List.cons.inj hpop).2.symm

/-- A step back leaves the account of two calls ago, except that less is asked when the
selection that it undoes had begun a round. -/
theorem account_of_backtrack (hpool : p.Accepts pool) (hi : i < p.parities)
    (h : (start p pool detect).moveAt k = some (.backtrack c)) :
    ∃ j, k = j + 1 ∧
      (start p pool detect).coverage (k + 1) i = (start p pool detect).coverage j i ∧
      ((start p pool detect).quota (k + 1) i = (start p pool detect).quota j i ∨
        ((start p pool detect).undoesRound k = true ∧
          (start p pool detect).quota (k + 1) i ≤ (start p pool detect).quota j i)) := by
  obtain ⟨hopen, hstep⟩ := start_moveAt_eq_some_iff.mp h
  obtain ⟨j, rfl, hbefore⟩ := SearchState.exists_selection_before hpool hopen hstep
  have hopenj := SearchState.open_of_le (Nat.le_succ j) hopen
  refine ⟨j, rfl, ?_, ?_⟩
  · apply coverage_of_used_eq
    rw [start_after_state, start_after_state]
    obtain ⟨hcover, -⟩ | ⟨hrollover, -⟩ := hbefore
    · exact used_of_undone hcover (.inl rfl) hstep
    · exact used_of_undone hrollover (.inr rfl) hstep
  · obtain ⟨hcover, hneeded⟩ | ⟨hrollover, hneeded⟩ := hbefore
    · have hj : (start p pool detect).moveAt j = some (.cover c) :=
        start_moveAt_eq_some_iff.mpr ⟨hopenj, hcover⟩
      left
      simp [quota, rounds, start_after_state, hneeded, selections_of_backtrack h,
        selections_of_cover hj]
    · have hj : (start p pool detect).moveAt j = some (.rollover c) :=
        start_moveAt_eq_some_iff.mpr ⟨hopenj, hrollover⟩
      right
      constructor
      · simp [undoesRound, h, selections_of_rollover hj]
      · -- with all parities needed the rounds ask for the least that they can
        have hfull : i ∈ p.full := CodeParams.mem_full.mpr hi
        simp only [quota, rounds, start_after_state, hneeded, selections_of_backtrack h,
          selections_of_rollover hj, List.tail_cons, if_pos hfull]
        split_ifs <;> omega

/-- One call adds as much to what is asked as to what is there, or it undoes a selection. -/
theorem account_succ (hpool : p.Accepts pool) (detect : Bool) (k : ℕ) (hi : i < p.parities) :
    (∃ d, (start p pool detect).quota (k + 1) i = (start p pool detect).quota k i + d ∧
      (start p pool detect).coverage (k + 1) i = (start p pool detect).coverage k i + d) ∨
    ∃ j, k = j + 1 ∧
      (start p pool detect).coverage (k + 1) i = (start p pool detect).coverage j i ∧
      ((start p pool detect).quota (k + 1) i = (start p pool detect).quota j i ∨
        ((start p pool detect).undoesRound k = true ∧
          (start p pool detect).quota (k + 1) i ≤ (start p pool detect).quota j i)) := by
  by_cases hopen : p.parities < (trail p pool k).pool.length
  · obtain ⟨move, hstep⟩ := SearchState.exists_step_trail hpool hopen
    have h : (start p pool detect).moveAt k = some move :=
      start_moveAt_eq_some_iff.mpr ⟨hopen, hstep⟩
    cases move with
    | cover c => exact .inl ⟨_, quota_of_cover h, coverage_of_selection h (.inl rfl)⟩
    | rollover c => exact .inl ⟨_, quota_of_rollover hi h, coverage_of_selection h (.inr rfl)⟩
    | backtrack c => exact .inr (account_of_backtrack hpool hi h)
  · have hconv := Nat.le_of_not_lt hopen
    have hnone : (start p pool detect).moveAt k = none := start_moveAt_eq_none hconv
    have hstay : trail p pool (k + 1) = trail p pool k := by
      rw [SearchState.trail_succ, SearchState.next_of_converged hconv]
    refine .inl ⟨0, ?_, ?_⟩
    · simp [quota, rounds, start_after_state, hstay, selections, hnone]
    · simp [coverage, start_after_state, hstay]

lemma account_zero (pool : Pool) (detect : Bool) (hi : i < p.parities) :
    (start p pool detect).quota 0 i = 0 ∧ (start p pool detect).coverage 0 i = 0 := by
  have hfull : i ∈ p.full := CodeParams.mem_full.mpr hi
  simp [quota, coverage, rounds, selections, start, SearchState.start, hfull]

/-- At every time there are as many selections of a parity as the rounds ask for, and no
more as long as no round that has begun is taken back. -/
theorem quota_le_coverage (hpool : p.Accepts pool) (detect : Bool) (k : ℕ) (hi : i < p.parities) :
    (start p pool detect).quota k i ≤ (start p pool detect).coverage k i ∧
      ((∀ j < k, (start p pool detect).undoesRound j = false) →
        (start p pool detect).quota k i = (start p pool detect).coverage k i) := by
  induction k using Nat.strong_induction_on with
  | h k ih =>
    cases k with
    | zero =>
      obtain ⟨hquota, hcoverage⟩ := account_zero pool detect hi
      constructor
      · omega
      · intro _
        omega
    | succ k =>
      obtain ⟨d, hquota, hcoverage⟩ | ⟨j, rfl, hcoverage, hquota⟩ :=
        account_succ hpool detect k hi
      · obtain ⟨hle, hexact⟩ := ih k (by omega)
        refine ⟨by omega, fun h => ?_⟩
        have := hexact fun j hj => h j (by omega)
        omega
      · obtain ⟨hle, hexact⟩ := ih j (by omega)
        refine ⟨by omega, fun h => ?_⟩
        have := hexact fun i hi => h i (by omega)
        obtain hquota | ⟨hundoes, -⟩ := hquota
        · omega
        · simp [h (j + 1) (by omega)] at hundoes

/-- No selection is lost: what the pool lacks of a parity is in the stack. -/
theorem pool_countP_add_coverage (hpool : p.Accepts pool) (detect : Bool) (k i : ℕ) :
    (trail p pool k).pool.countP (fun c => c.contains i) + (start p pool detect).coverage k i =
      pool.countP fun c => c.contains i := by
  rw [coverage, start_after_state, ← List.countP_append]
  exact (SearchState.sound_trail hpool k).perm.countP_eq _

end Course

/-- The selections in force cover every parity at least once for each of them that began a
round, and once more when the parity is not needed. If no selection that began a round has
been taken back, they do so exactly, and any two parities are covered equally often up to
one. What is covered has been taken out of the pool. -/
theorem parities_covered_in_rounds {p : CodeParams} {pool : Pool} {detect : Bool} {s : Search}
    (hs : Begins p detect pool s) (k : ℕ) :
    (s.selections k).map Move.candidate = (s.after k).state.used ∧
    (∀ i < p.parities, s.rounds k ≤ s.coverage k i ∧
      (¬ i ∈ (s.after k).state.needed → s.rounds k + 1 ≤ s.coverage k i)) ∧
    ((∀ j < k, s.undoesRound j = false) →
      (∀ i < p.parities, s.coverage k i =
        if i ∈ (s.after k).state.needed then s.rounds k else s.rounds k + 1) ∧
      (∀ i < p.parities, ∀ j < p.parities, s.coverage k i ≤ s.coverage k j + 1)) ∧
    ∀ i, (s.after k).state.pool.countP (fun c => c.contains i) + s.coverage k i =
      pool.countP fun c => c.contains i := by
  have hpool := hs.accepts
  rw [hs.eq_start]
  refine ⟨?_, ?_, ?_, ?_⟩
  · rw [start_after_state]
    exact map_candidate_selections hpool detect k
  · intro i hi
    have hle := (quota_le_coverage hpool detect k hi).1
    unfold quota at hle
    constructor
    · split_ifs at hle <;> omega
    · intro hneeded
      rwa [if_neg hneeded] at hle
  · intro h
    have hexact : ∀ i < p.parities,
        (start p pool detect).quota k i = (start p pool detect).coverage k i :=
      fun i hi => (quota_le_coverage hpool detect k hi).2 h
    constructor
    · intro i hi
      exact (hexact i hi).symm
    · intro i hi j hj
      rw [← hexact i hi, ← hexact j hj]
      unfold quota
      split_ifs <;> omega
  · intro i
    rw [start_after_state]
    exact pool_countP_add_coverage hpool detect k i

/-- The code with five parities and weight two. -/
def fiveTwo : CodeParams := ⟨5, .two, by decide, by decide⟩

/-- After three steps of its search in lexicographic order the second round has begun, and
the parity 0 has been covered once more than the others. -/
theorem fiveTwo_covered_in_rounds :
    (ofParams fiveTwo true).rounds 3 = 1 ∧
      (∀ i < 5, (ofParams fiveTwo true).coverage 3 i =
        if i ∈ ((ofParams fiveTwo true).after 3).state.needed then 1 else 2) ∧
      (ofParams fiveTwo true).coverage 3 0 = 2 := by
  have hrounds : (ofParams fiveTwo true).rounds 3 = 1 := by decide +kernel
  have hkept : ∀ j < 3, (ofParams fiveTwo true).undoesRound j = false := by decide +kernel
  have hs : Begins fiveTwo true fiveTwo.candidates (ofParams fiveTwo true) := .ofParams
  obtain ⟨-, -, hexact, -⟩ := parities_covered_in_rounds hs 3
  have hcoverage := (hexact hkept).1
  rw [hrounds] at hcoverage
  exact ⟨hrounds, hcoverage, by rw [hcoverage 0 (by decide), if_neg (by decide +kernel)]⟩

end Search

end FlatXor
