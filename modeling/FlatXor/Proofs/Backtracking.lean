import FlatXor.Proofs.Calls

/-!
# How far a search takes back

Nothing in the step function limits how many selections are taken back in a row.
It never is more than one. What is taken back lies inside the needed set that it
leaves, so the next step finds something to cover. It follows that a selection
below the latest stays for good, and that the stack has been at most one higher
than it is after a step back.
-/
namespace FlatXor

namespace SearchState

variable {p : CodeParams} {pool : Pool} {s s' s'' : SearchState} {move : Move} {c : ParitySet}

lemma Step.used_of_cover (h : Step p s (.cover c) s') : s'.used = c :: s.used := by
  cases h
  rfl

lemma Step.used_of_rollover (h : Step p s (.rollover c) s') : s'.used = c :: s.used := by
  cases h
  rfl

lemma Step.used_of_backtrack (h : Step p s (.backtrack c) s') : s.used = c :: s'.used := by
  cases h with
  | backtrack _ hused => exact hused

lemma Step.pool_of_backtrack (h : Step p s (.backtrack c) s') : s'.pool = s.pool ++ [c] := by
  cases h
  rfl

lemma Step.needed_of_cover (h : Step p s (.cover c) s') : s'.needed = s.needed.diff c := by
  cases h
  rfl

lemma Step.needed_of_rollover (h : Step p s (.rollover c) s') :
    s'.needed = p.full.symmDiff (c.diff s.needed) := by
  cases h
  rfl

lemma Step.subset_of_cover (h : Step p s (.cover c) s') : c ⊆ s.needed := by
  cases h
  assumption

lemma Step.subset_of_rollover (h : Step p s (.rollover c) s') : s.needed ⊆ c := by
  cases h
  assumption

/-- A state that is ready lets only a candidate be covered. -/
theorem Ready.exists_cover (hs : Ready p s) (h : Step p s move s') : ∃ d, move = .cover d := by
  cases h with
  | cover _ _ _ _ => exact ⟨_, rfl⟩
  | rollover hweight _ _ _ => exact absurd hs.weight_le (Nat.not_le_of_gt hweight)
  | backtrack hstall _ =>
    obtain ⟨d, hd, hsub⟩ := hs.inside
    exact absurd ((qualifies_iff_of_le hs.weight_le).mpr hsub) (hstall d hd)

/-- What a step back undoes is the step before it, which made a selection. When that
began a new round, all parities are needed again. -/
theorem Step.undone (hpool : p.Accepts pool) (hs : Sound p pool s) (h : Step p s move s')
    (h' : Step p s' (.backtrack c) s'') :
    (move = .cover c ∧ s''.needed = s.needed) ∨ (move = .rollover c ∧ s''.needed = p.full) := by
  have hmem : move.candidate ∈ pool := hs.perm.subset h.candidate_mem
  cases h with
  | cover _ hc _ _ =>
    cases h' with
    | backtrack _ hused =>
      obtain ⟨rfl, rfl⟩ := List.cons.inj hused
      exact .inl ⟨rfl, ParitySet.diff_union_of_subset hc⟩
  | @rollover d _ _ _ _ _ _ =>
    have hfull : d ⊆ p.full := subset_full_of_accepts hpool hmem
    have hsurplus : d.diff s.needed ⊆ p.full :=
      ParitySet.subset_trans (ParitySet.diff_subset _ _) hfull
    cases h' with
    | backtrack _ hused =>
      obtain ⟨rfl, rfl⟩ := List.cons.inj hused
      refine .inr ⟨rfl, ?_⟩
      simp only [ParitySet.symmDiff_of_subset hsurplus]
      exact ParitySet.diff_surplus_union hfull
  | @backtrack d _ hstall hused =>
    have hready := (Step.backtrack hstall hused).ready_of_backtrack (size_eq_of_accepts hpool hmem)
    obtain ⟨e, he⟩ := hready.exists_cover h'
    cases he

/-- A step back is never the first, and the step before it made the selection. -/
theorem exists_selection_before (hpool : p.Accepts pool) {k : ℕ}
    (hopen : p.parities < (trail p pool k).pool.length)
    (h : Step p (trail p pool k) (.backtrack c) (trail p pool (k + 1))) :
    ∃ j, k = j + 1 ∧
      ((Step p (trail p pool j) (.cover c) (trail p pool k) ∧
          (trail p pool (k + 1)).needed = (trail p pool j).needed) ∨
        (Step p (trail p pool j) (.rollover c) (trail p pool k) ∧
          (trail p pool (k + 1)).needed = p.full)) := by
  cases k with
  | zero =>
    have hused := h.used_of_backtrack
    simp [trail_zero, start] at hused
  | succ j =>
    obtain ⟨move, hj⟩ := exists_step_trail hpool (open_of_le (Nat.le_succ j) hopen)
    refine ⟨j, rfl, ?_⟩
    obtain ⟨rfl, hneeded⟩ | ⟨rfl, hneeded⟩ := Step.undone hpool (sound_trail hpool j) hj h
    · exact .inl ⟨hj, hneeded⟩
    · exact .inr ⟨hj, hneeded⟩

/-- What a step back leaves: something to cover, and a pool so large that covering it
does not end the search. -/
structure Resumed (p : CodeParams) (s : SearchState) : Prop extends Ready p s where
  spare : p.parities + 1 < s.pool.length

theorem resumed_of_backtrack (hpool : p.Accepts pool) {k : ℕ}
    (hopen : p.parities < (trail p pool k).pool.length)
    (h : Step p (trail p pool k) (.backtrack c) (trail p pool (k + 1))) :
    Resumed p (trail p pool (k + 1)) := by
  have hs := sound_trail hpool k
  have hmem : c ∈ pool := hs.perm.subset h.candidate_mem
  refine ⟨h.ready_of_backtrack (size_eq_of_accepts hpool hmem), ?_⟩
  have hused := congrArg List.length h.used_of_backtrack
  have hlen := hs.length_add
  have hlen' := (sound_trail hpool (k + 1)).length_add
  rw [List.length_cons] at hused
  omega

/-- Either the stack has kept all but the latest of its selections below its own
latest, or it has just given up its latest and will not give up more. -/
theorem tail_used_suffix (hpool : p.Accepts pool) (i j : ℕ) :
    (trail p pool i).used.tail <:+ (trail p pool (i + j)).used.tail ∨
      (Ready p (trail p pool (i + j)) ∧
        (trail p pool i).used.tail <:+ (trail p pool (i + j)).used) := by
  induction j with
  | zero => exact .inl (List.suffix_refl _)
  | succ j ih =>
    rw [← Nat.add_assoc]
    by_cases hopen : p.parities < (trail p pool (i + j)).pool.length
    · obtain ⟨move, h⟩ := exists_step_trail hpool hopen
      have hused : (trail p pool i).used.tail <:+ (trail p pool (i + j)).used := by
        obtain hsuffix | ⟨-, hsuffix⟩ := ih
        · exact hsuffix.trans (List.tail_suffix _)
        · exact hsuffix
      cases move with
      | cover c => exact .inl (by rwa [h.used_of_cover])
      | rollover c => exact .inl (by rwa [h.used_of_rollover])
      | backtrack c =>
        have hready := (resumed_of_backtrack hpool hopen h).toReady
        obtain hsuffix | ⟨hready', -⟩ := ih
        · rw [h.used_of_backtrack] at hsuffix
          exact .inr ⟨hready, hsuffix⟩
        · obtain ⟨d, hd⟩ := hready'.exists_cover h
          cases hd
    · rw [trail_succ, next_of_converged (Nat.le_of_not_lt hopen)]
      exact ih

/-- A selection below the latest is never taken back. -/
theorem tail_used_suffix_of_le (hpool : p.Accepts pool) {i j : ℕ} (hij : i ≤ j) :
    (trail p pool i).used.tail <:+ (trail p pool j).used := by
  obtain ⟨k, rfl⟩ := Nat.exists_eq_add_of_le hij
  obtain hsuffix | ⟨-, hsuffix⟩ := tail_used_suffix hpool i k
  · exact hsuffix.trans (List.tail_suffix _)
  · exact hsuffix

/-- The stack has never been more than one higher than it is. -/
theorem used_length_le_succ (hpool : p.Accepts pool) {i j : ℕ} (hij : i ≤ j) :
    (trail p pool i).used.length ≤ (trail p pool j).used.length + 1 := by
  have h := (tail_used_suffix_of_le hpool hij).length_le
  rw [List.length_tail] at h
  omega

end SearchState

namespace Search

open SearchState (trail Step)

/-- A search takes back one selection at a time: the one it has just made, with which
the needed set becomes what it was or, if a round had begun, full. Then it goes on
by covering. So an entry of the stack below the latest is there for good. -/
theorem backtracks_one_selection {p : CodeParams} {pool : Pool} {detect : Bool} {s : Search}
    (hs : Begins p detect pool s) :
    (∀ k c, s.moveAt k = some (.backtrack c) →
      (∃ j, k = j + 1 ∧
        ((s.moveAt j = some (.cover c) ∧
            (s.after (k + 1)).state.needed = (s.after j).state.needed) ∨
          (s.moveAt j = some (.rollover c) ∧ (s.after (k + 1)).state.needed = p.full))) ∧
      (s.after (k + 1)).isConverged = false ∧
      ∃ d, s.moveAt (k + 1) = some (.cover d)) ∧
    ∀ i j, i ≤ j →
      (s.after i).state.used.oldestFirst.dropLast <+: (s.after j).state.used.oldestFirst := by
  have hpool := hs.accepts
  rw [hs.eq_start]
  constructor
  · intro k c hk
    obtain ⟨hopen, h⟩ := start_moveAt_eq_some_iff.mp hk
    have hresumed := SearchState.resumed_of_backtrack hpool hopen h
    have hopen' : p.parities < (trail p pool (k + 1)).pool.length :=
      Nat.lt_of_succ_lt hresumed.spare
    refine ⟨?_, ?_, ?_⟩
    · obtain ⟨j, rfl, hj⟩ := SearchState.exists_selection_before hpool hopen h
      have hopenj := SearchState.open_of_le (Nat.le_succ j) hopen
      refine ⟨j, rfl, ?_⟩
      simp only [start_moveAt_eq_some_iff, start_after_state]
      exact hj.imp (fun h => ⟨⟨hopenj, h.1⟩, h.2⟩) (fun h => ⟨⟨hopenj, h.1⟩, h.2⟩)
    · rw [isConverged_eq_false_iff, start_after_params, start_after_state]
      exact hopen'
    · obtain ⟨move, hstep⟩ := SearchState.exists_step_trail hpool hopen'
      obtain ⟨d, rfl⟩ := hresumed.exists_cover hstep
      exact ⟨d, start_moveAt_eq_some_iff.mpr ⟨hopen', hstep⟩⟩
  · intro i j hij
    simp only [start_after_state, UsedStack.oldestFirst, List.dropLast_reverse]
    exact List.reverse_prefix.mpr (SearchState.tail_used_suffix_of_le hpool hij)

/-- The code with three parities and weight two. -/
def threeTwo : CodeParams := ⟨3, .two, by decide, by decide⟩

/-- A search of six candidates for three parities whose third step takes back the
selection that began a round. -/
def undoneRound : Search :=
  start threeTwo [⟨5⟩, ⟨5⟩, ⟨3⟩, ⟨5⟩, ⟨5⟩, ⟨5⟩] true

theorem undoneRound_backtracks :
    Begins undoneRound.params true undoneRound.state.pool undoneRound ∧
      undoneRound.moveAt 2 = some (.backtrack ⟨3⟩) ∧
      (undoneRound.after 3).isConverged = false ∧
      ∃ d, undoneRound.moveAt 3 = some (.cover d) := by
  have hs : Begins undoneRound.params true undoneRound.state.pool undoneRound := .ofPool rfl
  have hback : undoneRound.moveAt 2 = some (.backtrack ⟨3⟩) := by decide +kernel
  exact ⟨hs, hback, ((backtracks_one_selection hs).1 2 ⟨3⟩ hback).2⟩

end Search

end FlatXor
