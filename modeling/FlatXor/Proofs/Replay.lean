import FlatXor.Proofs.CopyOrder
import FlatXor.Proofs.Rounds
import FlatXor.Proofs.Stopping

/-!
# Replaying a search

A search comes to its selections through choices that it takes back and in a pool whose
order it changes. As long as no selection that began a round is taken back, a step back
restores the needed set of before the selection. So what is needed depends on the
selections in force alone: it is what they lead to from the full set, taken from the oldest
on. A pool in which they stand first, in this order, therefore makes the search select them
one after the other.
-/
namespace FlatXor

namespace SearchState

variable {p : CodeParams} {pool rest : Pool} {s s' : SearchState} {c needed : ParitySet}
  {used : UsedStack} {move : Move}

/-- What is needed after the selection of `c`. -/
def neededAfter (p : CodeParams) (needed c : ParitySet) : ParitySet :=
  if p.weight ≤ needed.size then needed.diff c else p.full.symmDiff (c.diff needed)

/-- The selections, each of which qualifies in its turn from the oldest on, lead from the
full set to the needed one. -/
inductive Leads (p : CodeParams) : UsedStack → ParitySet → Prop
  | start : Leads p [] p.full
  | select {used : UsedStack} {needed c : ParitySet} (h : Leads p used needed)
      (hc : Qualifies p needed c) : Leads p (c :: used) (neededAfter p needed c)

/-- A selection makes the next entry of the stack. -/
theorem Step.leads_of_selection (h : Step p s move s') (hmove : move = .cover c ∨ move = .rollover c)
    (hs : Leads p s.used s.needed) : Leads p s'.used s'.needed := by
  cases h with
  | @cover d front back hweight hc hfront hpool =>
    have hq : Qualifies p s.needed d := (qualifies_iff_of_le hweight).mpr hc
    have hleads := hs.select hq
    rwa [neededAfter, if_pos hweight] at hleads
  | @rollover d front back hweight hc hfront hpool =>
    have hq : Qualifies p s.needed d := (qualifies_iff_of_lt hweight).mpr hc
    have hleads := hs.select hq
    rwa [neededAfter, if_neg (Nat.not_le_of_gt hweight)] at hleads
  | backtrack _ _ => simp at hmove

/-- When the first candidate of the pool qualifies, it is the one that is selected. -/
theorem exists_step_of_first (rest : Pool) (used : UsedStack) (hc : Qualifies p needed c) :
    ∃ move, (move = .cover c ∨ move = .rollover c) ∧
      Step p ⟨needed, c :: rest, used⟩ move ⟨neededAfter p needed c, rest, c :: used⟩ := by
  unfold neededAfter
  by_cases hweight : p.weight ≤ needed.size
  · rw [if_pos hweight]
    exact ⟨.cover c, .inl rfl, @Step.cover p _ c [] rest hweight
      ((qualifies_iff_of_le hweight).mp hc) (List.forall_mem_nil _) rfl⟩
  · have hlt := Nat.lt_of_not_le hweight
    rw [if_neg hweight]
    exact ⟨.rollover c, .inr rfl, @Step.rollover p _ c [] rest hlt
      ((qualifies_iff_of_lt hlt).mp hc) (List.forall_mem_nil _) rfl⟩

/-- A pool that begins with the selections, from the oldest on, makes the search select
just these. -/
theorem Leads.replay (h : Leads p used needed) (hrest : used = [] ∨ p.parities ≤ rest.length) :
    trail p (used.reverse ++ rest) used.length = ⟨needed, rest, used⟩ ∧
      ∀ i < used.length, p.parities < (trail p (used.reverse ++ rest) i).pool.length ∧
        ∃ move d, (move = .cover d ∨ move = .rollover d) ∧
          Step p (trail p (used.reverse ++ rest) i) move
            (trail p (used.reverse ++ rest) (i + 1)) := by
  induction h generalizing rest with
  | start => exact ⟨rfl, fun i hi => absurd hi (Nat.not_lt_zero i)⟩
  | @select used needed c h hc ih =>
    have hrest : p.parities ≤ rest.length := by simpa using hrest
    obtain ⟨hstate, hbefore⟩ := @ih (c :: rest) (.inr (Nat.le_succ_of_le hrest))
    have hpool : (c :: used).reverse ++ rest = used.reverse ++ c :: rest := by simp
    rw [hpool, List.length_cons]
    obtain ⟨move, hmove, hstep⟩ := exists_step_of_first rest used hc
    have hopen : p.parities < (trail p (used.reverse ++ c :: rest) used.length).pool.length := by
      rw [hstate]
      exact Nat.lt_succ_of_le hrest
    have hnext : trail p (used.reverse ++ c :: rest) (used.length + 1) =
        ⟨neededAfter p needed c, rest, c :: used⟩ := by
      rw [trail_succ]
      rw [hstate] at hopen ⊢
      exact next_of_step hopen hstep
    refine ⟨hnext, fun i hi => ?_⟩
    obtain hlt | rfl := Nat.lt_succ_iff_lt_or_eq.mp hi
    · exact hbefore i hlt
    · refine ⟨hopen, move, c, hmove, ?_⟩
      rwa [hnext, hstate]

/-- A step makes at most one selection. -/
theorem length_used_le (hpool : p.Accepts pool) (k : ℕ) : (trail p pool k).used.length ≤ k := by
  induction k with
  | zero => exact Nat.le_refl 0
  | succ k ih =>
    by_cases hopen : p.parities < (trail p pool k).pool.length
    · obtain ⟨move, hstep⟩ := exists_step_trail hpool hopen
      have hstack := (sound_trail hpool k).length_add
      have hstack' := (sound_trail hpool (k + 1)).length_add
      have hlen := hstep.length_pool_le
      omega
    · rw [trail_succ, next_of_converged (Nat.le_of_not_lt hopen)]
      exact Nat.le_succ_of_le ih

end SearchState

namespace Statistics

@[simp] lemma backtracks_countStep (s : Statistics) : s.countStep.backtracks = s.backtracks := rfl

@[simp] lemma backtracks_recordDepth (s : Statistics) (depth : ℕ) :
    (s.recordDepth depth).backtracks = s.backtracks := rfl

end Statistics

namespace Search

open SearchState (trail Step Leads)

variable {p : CodeParams} {pool : Pool} {detect : Bool} {s : Search} {k : ℕ} {c : ParitySet}

/-- What a call of an open search counts, whatever it answers. -/
lemma statistics_succ {move : Move} (h : s.moveAt k = some move) :
    (s.after (k + 1)).statistics =
      ((s.after k).statistics.countStep.countMove move).recordDepth
        (s.after (k + 1)).state.used.length := by
  obtain ⟨hopen, hstep⟩ := SearchState.move?_eq_some_iff.mp h
  rw [after_succ, step_of_move (isConverged_eq_false_iff.mpr hopen) hstep]

/-- Calls that make selections count no step back. -/
theorem backtracks_of_selections
    (h : ∀ i < k, ∃ move c, s.moveAt i = some move ∧ (move = .cover c ∨ move = .rollover c)) :
    (s.after k).statistics.backtracks = s.statistics.backtracks := by
  induction k with
  | zero => rfl
  | succ k ih =>
    obtain ⟨move, c, hmove, hselects⟩ := h k (Nat.lt_succ_self k)
    rw [statistics_succ hmove, Statistics.backtracks_recordDepth,
      ← ih fun i hi => h i (Nat.lt_succ_of_lt hi)]
    obtain rfl | rfl := hselects
    · rfl
    · rfl

/-- A step back that follows a selection that began a round undoes that round. -/
lemma undoesRound_of_rollover (h : s.moveAt k = some (.rollover c))
    (h' : s.moveAt (k + 1) = some (.backtrack c)) : s.undoesRound (k + 1) = true := by
  simp [undoesRound, h', selections_of_rollover h]

/-- As long as no selection that began a round is taken back, the selections in force lead
to what is needed. -/
theorem leads_trail (hpool : p.Accepts pool) (detect : Bool) (k : ℕ)
    (hkept : ∀ j < k, (start p pool detect).undoesRound j = false) :
    Leads p (trail p pool k).used (trail p pool k).needed := by
  induction k using Nat.strong_induction_on with
  | h k ih =>
    cases k with
    | zero => exact .start
    | succ k =>
      have hbefore : ∀ j ≤ k, Leads p (trail p pool j).used (trail p pool j).needed :=
        fun j hj => ih j (Nat.lt_succ_of_le hj) fun i hi => hkept i (by omega)
      by_cases hopen : p.parities < (trail p pool k).pool.length
      · obtain ⟨move, hstep⟩ := SearchState.exists_step_trail hpool hopen
        cases move with
        | cover c => exact hstep.leads_of_selection (.inl rfl) (hbefore k (Nat.le_refl k))
        | rollover c => exact hstep.leads_of_selection (.inr rfl) (hbefore k (Nat.le_refl k))
        | backtrack c =>
          obtain ⟨j, rfl, ⟨hcover, hneeded⟩ | ⟨hrollover, -⟩⟩ :=
            SearchState.exists_selection_before hpool hopen hstep
          · -- the stack and the needed set are those of two steps ago
            rw [used_of_undone hcover (.inl rfl) hstep, hneeded]
            exact hbefore j (Nat.le_succ j)
          · have hopenj := SearchState.open_of_le (Nat.le_succ j) hopen
            have hundoes : (start p pool detect).undoesRound (j + 1) = true :=
              undoesRound_of_rollover (start_moveAt_eq_some_iff.mpr ⟨hopenj, hrollover⟩)
                (start_moveAt_eq_some_iff.mpr ⟨hopen, hstep⟩)
            rw [hkept (j + 1) (Nat.lt_succ_self _)] at hundoes
            cases hundoes
      · rw [SearchState.trail_succ, SearchState.next_of_converged (Nat.le_of_not_lt hopen)]
        exact hbefore k (Nat.le_refl k)

/-- The search of a pool that begins with selections which lead to a needed set, and has no
more candidates behind them than there are parities, makes these selections and is over. -/
theorem run_replay {used : UsedStack} {needed : ParitySet} {rest : Pool} {maxSteps : Option ℕ}
    (hpool : p.Accepts (used.reverse ++ rest)) (h : Leads p used needed)
    (hrest : used = [] ∨ p.parities ≤ rest.length) (hsmall : rest.length ≤ p.parities)
    (hlimit : ∀ limit, maxSteps = some limit → used.length ≤ limit) :
    ∃ o, (start p (used.reverse ++ rest) detect).run maxSteps = some (.ok o) ∧
      o.used = used ∧ o.pool = rest ∧ o.statistics.steps = used.length ∧
      o.statistics.backtracks = 0 := by
  obtain ⟨hstate, hbefore⟩ := h.replay hrest
  have hopen : ∀ i < used.length, p.parities < (trail p (used.reverse ++ rest) i).pool.length :=
    fun i hi => (hbefore i hi).1
  have hconv : (trail p (used.reverse ++ rest) used.length).pool.length ≤ p.parities := by
    rwa [hstate]
  have hrun := (run_of_converges hpool detect hconv hopen).1 hlimit
  refine ⟨_, hrun, ?_, ?_, start_after_steps hpool detect hopen, ?_⟩
  · rw [outcome, start_after_state, hstate]
  · rw [outcome, start_after_state, hstate]
  · apply backtracks_of_selections
    intro i hi
    obtain ⟨hi, move, c, hmove, hstep⟩ := hbefore i hi
    exact ⟨move, c, start_moveAt_eq_some_iff.mpr ⟨hi, hstep⟩, hmove⟩

/-- A search that has converged certifies itself. If no selection that began a round was
taken back, a search of its selections, from the oldest to the latest, followed by its final
pool comes to the same selections and the same pool, in as many steps as there are
selections and without a step back. It does so under all limits that allow for these steps,
and those of the first run do. -/
theorem converged_replays {p : CodeParams} {pool : Pool} {detect : Bool} {s : Search}
    {maxSteps : Option ℕ} {o : SearchOutcome} (hs : Begins p detect pool s)
    (hrun : s.run maxSteps = some (.ok o))
    (hkept : ∀ j < o.statistics.steps, s.undoesRound j = false) :
    (∀ limit, maxSteps = some limit → o.used.length ≤ limit) ∧
    ∀ limits : SearchLimits,
      (∀ limit, limits.maxSteps = some limit → o.used.length ≤ limit) →
      ∃ again o', ofPool p (o.used.oldestFirst ++ o.pool) limits.detectOscillation = .ok again ∧
        again.run limits.maxSteps = some (.ok o') ∧ o'.used = o.used ∧ o'.pool = o.pool ∧
        o'.statistics.steps = o.used.length ∧ o'.statistics.backtracks = 0 := by
  have hpool := hs.accepts
  rw [hs.eq_start] at hrun hkept
  obtain ⟨-, hperm, hlen⟩ := outcome_of_run hpool hrun
  obtain ⟨k, hends, hconv, ho⟩ := exists_converged_of_run hrun
  have hopen : ∀ i < k, p.parities < (trail p pool i).pool.length := fun i hi => hends.open_trail hi
  have hsteps : o.statistics.steps = k := by
    rw [ho]
    exact start_after_steps hpool detect hopen
  have hused : o.used = (trail p pool k).used := by
    rw [ho, outcome, start_after_state]
  rw [hsteps] at hkept
  constructor
  · intro limit hlimit
    by_contra hlow
    have hle := SearchState.length_used_le hpool k
    have hcut := (run_of_converges hpool detect (start_isConverged_after.mp hconv) hopen).2 limit
      hlimit (by rw [hused] at hlow; omega)
    rw [hrun] at hcut
    cases hcut
  · intro limits hlimit
    have hleads : Leads p o.used (trail p pool k).needed := by
      rw [hused]
      exact leads_trail hpool detect k hkept
    have haccepts : p.Accepts (o.used.reverse ++ o.pool) := by
      intro c hc
      apply hpool c
      have hmem : c ∈ o.pool ++ o.used := by simpa [or_comm] using hc
      exact hperm.subset hmem
    have hrest : o.used = [] ∨ p.parities ≤ o.pool.length := by
      have hlength := hperm.length_eq
      rw [List.length_append] at hlength
      rcases Nat.eq_zero_or_pos o.used.length with hnone | hsome
      · exact .inl (List.length_eq_zero_iff.mp hnone)
      · right
        omega
    obtain ⟨o', hrun', hfacts⟩ := run_replay haccepts hleads hrest
      (by rw [hlen]; exact Nat.min_le_left _ _) hlimit
    exact ⟨_, o', ofPool_eq_ok_iff.mpr ⟨haccepts, rfl⟩, hrun', hfacts⟩

/-- The search of all pairs of six parities takes back two of its selections on the way to
nine, and needs just nine steps when these stand first. -/
theorem sixTwo_replays :
    Begins sixTwo true sixTwo.candidates (ofParams sixTwo true) ∧
      ∃ o, (ofParams sixTwo true).run (some 13) = some (.ok o) ∧ o.statistics.backtracks = 2 ∧
        (∀ j < o.statistics.steps, (ofParams sixTwo true).undoesRound j = false) ∧
        ∃ again o', ofPool sixTwo (o.used.oldestFirst ++ o.pool) true = .ok again ∧
          again.run (some 9) = some (.ok o') ∧ o'.used = o.used ∧ o'.pool = o.pool ∧
          o'.statistics.steps = 9 ∧ o'.statistics.backtracks = 0 := by
  have hrun : (ofParams sixTwo true).run (some 13) =
      some (.ok ((ofParams sixTwo true).after 13).outcome) := by
    decide +kernel
  have hkept : ∀ j < ((ofParams sixTwo true).after 13).outcome.statistics.steps,
      (ofParams sixTwo true).undoesRound j = false := by
    decide +kernel
  have hnine : ((ofParams sixTwo true).after 13).outcome.used.length = 9 := by decide +kernel
  obtain ⟨-, hreplay⟩ := converged_replays .ofParams hrun hkept
  obtain ⟨again, o', hagain, hrun', hused, hpool, hsteps, hbacktracks⟩ :=
    hreplay ⟨some 9, true⟩ fun limit hlimit => by
      cases hlimit
      exact Nat.le_of_eq hnine
  exact ⟨.ofParams, _, hrun, by decide +kernel, hkept, again, o', hagain, hrun', hused, hpool,
    hsteps.trans hnine, hbacktracks⟩

end Search

end FlatXor
