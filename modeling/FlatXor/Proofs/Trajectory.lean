import FlatXor.Proofs.Step
import Mathlib.Data.List.Perm.Basic
import Mathlib.Logic.Function.Iterate

/-!
# The states of a search

A state decides all later ones, so the course of a search is a sequence of
iterates. Three facts hold along it: no candidate is lost or doubled, only
parities of the code are needed, and there is always a move. The last one needs
the reason for which there is one. Either something inside the needed set is in
the pool, or there is a selection to take back.
-/
namespace FlatXor

/-- Does the code admit every candidate of the pool? -/
def CodeParams.Accepts (p : CodeParams) (pool : Pool) : Prop := ∀ c ∈ pool, p.admits c = true

namespace SearchState

variable {p : CodeParams} {pool : Pool} {s s' : SearchState} {move : Move}

/-- The state after `k` steps. -/
def after (p : CodeParams) (s : SearchState) (k : ℕ) : SearchState := (next p)^[k] s

@[simp] lemma after_zero (p : CodeParams) (s : SearchState) : s.after p 0 = s := rfl

lemma after_succ (p : CodeParams) (s : SearchState) (k : ℕ) :
    s.after p (k + 1) = (s.after p k).next p := Function.iterate_succ_apply' _ _ _

lemma after_add (p : CodeParams) (s : SearchState) (i j : ℕ) :
    s.after p (i + j) = (s.after p i).after p j := by
  rw [after, Nat.add_comm i j, Function.iterate_add_apply, after, after]

/-- Enough parities are needed to cover some, and a candidate lies inside them. -/
structure Ready (p : CodeParams) (s : SearchState) : Prop where
  weight_le : p.weight ≤ s.needed.size
  inside : ∃ c ∈ s.pool, c ⊆ s.needed

/-- What holds of every state of a search of `pool`. -/
structure Sound (p : CodeParams) (pool : Pool) (s : SearchState) : Prop where
  perm : (s.pool ++ s.used).Perm pool
  needed_subset : s.needed ⊆ p.full
  movable : p.parities < s.pool.length → Ready p s ∨ s.used ≠ []

lemma size_eq_of_accepts (hpool : p.Accepts pool) {c : ParitySet} (hc : c ∈ pool) :
    c.size = p.weight := (CodeParams.admits_iff.mp (hpool c hc)).1

lemma subset_full_of_accepts (hpool : p.Accepts pool) {c : ParitySet} (hc : c ∈ pool) :
    c ⊆ p.full := fun i hi => CodeParams.mem_full.mpr ((CodeParams.admits_iff.mp (hpool c hc)).2 i hi)

/-- At the start every candidate lies inside the needed set, which is full. -/
theorem sound_start (hpool : p.Accepts pool) : Sound p pool (start p pool) where
  perm := by simp [start]
  needed_subset := fun _ hi => hi
  movable := by
    intro hopen
    obtain ⟨c, hc⟩ := List.exists_mem_of_length_pos (Nat.zero_lt_of_lt hopen)
    have hfull := subset_full_of_accepts hpool hc
    refine .inl ⟨?_, c, hc, hfull⟩
    rw [← size_eq_of_accepts hpool hc]
    exact ParitySet.size_le_of_subset hfull

lemma Sound.mem_of_mem_used (hs : Sound p pool s) {c : ParitySet} (hc : c ∈ s.used) : c ∈ pool :=
  hs.perm.subset (List.mem_append_right _ hc)

lemma Sound.length_add (hs : Sound p pool s) : s.pool.length + s.used.length = pool.length := by
  rw [← hs.perm.length_eq, List.length_append]

/-- A step moves one candidate from the pool to the stack or back. -/
theorem Step.perm (h : Step p s move s') : (s'.pool ++ s'.used).Perm (s.pool ++ s.used) := by
  cases h with
  | @cover c front back _ _ _ hpool =>
    rw [hpool, List.append_assoc, List.append_assoc, List.cons_append]
    exact (List.perm_middle).append_left front
  | @rollover c front back _ _ _ hpool =>
    rw [hpool, List.append_assoc, List.append_assoc, List.cons_append]
    exact (List.perm_middle).append_left front
  | backtrack _ hused =>
    rw [hused, List.append_assoc]
    rfl

/-- The candidate of a step is on the stack before the step or in the pool. -/
lemma Step.candidate_mem (h : Step p s move s') : move.candidate ∈ s.pool ++ s.used := by
  cases h with
  | cover _ _ _ hpool => simp [Move.candidate, hpool]
  | rollover _ _ _ hpool => simp [Move.candidate, hpool]
  | backtrack _ hused => simp [Move.candidate, hused]

/-- After a step back the candidate that was taken back lies inside the needed set,
so that there is something to cover. -/
theorem Step.ready_of_backtrack {c : ParitySet} (h : Step p s (.backtrack c) s')
    (hc : c.size = p.weight) : Ready p s' := by
  cases h with
  | backtrack _ _ =>
    have hsub := ParitySet.subset_union_right s.needed c
    exact ⟨hc ▸ ParitySet.size_le_of_subset hsub, c, by simp, hsub⟩

theorem Sound.step (hpool : p.Accepts pool) (hs : Sound p pool s) (h : Step p s move s') :
    Sound p pool s' where
  perm := h.perm.trans hs.perm
  needed_subset := by
    have hmem : move.candidate ∈ pool := hs.perm.subset h.candidate_mem
    have hfull := subset_full_of_accepts hpool hmem
    cases h with
    | cover _ _ _ _ => exact ParitySet.subset_trans (ParitySet.diff_subset _ _) hs.needed_subset
    | @rollover c _ _ _ _ _ _ =>
      have hsurplus : c.diff s.needed ⊆ p.full :=
        ParitySet.subset_trans (ParitySet.diff_subset _ _) hfull
      simp only [ParitySet.symmDiff_of_subset hsurplus]
      exact ParitySet.diff_subset _ _
    | backtrack _ _ => exact ParitySet.union_subset hs.needed_subset hfull
  movable := by
    intro _
    cases h with
    | cover _ _ _ _ => exact .inr (List.cons_ne_nil _ _)
    | rollover _ _ _ _ => exact .inr (List.cons_ne_nil _ _)
    | @backtrack c used hstall hused =>
      have hmem : c ∈ pool := hs.mem_of_mem_used (by simp [hused])
      exact .inl ((Step.backtrack hstall hused).ready_of_backtrack (size_eq_of_accepts hpool hmem))

/-- As long as the search is not over there is a step. -/
theorem Sound.exists_step (hs : Sound p pool s) (hopen : p.parities < s.pool.length) :
    ∃ move, Step p s move (s.next p) := by
  cases hadvance : s.advance? p with
  | some r =>
    have h := step_of_advance? hadvance
    exact ⟨r.1, by rwa [next_of_step hopen h]⟩
  | none =>
    obtain ⟨hstall, hused⟩ := advance?_eq_none_iff.mp hadvance
    obtain hready | hne := hs.movable hopen
    · obtain ⟨c, hc, hsub⟩ := hready.inside
      exact absurd ((qualifies_iff_of_le hready.weight_le).mpr hsub) (hstall c hc)
    · exact absurd hused hne

/-- The state after `k` steps of a search of `pool`. -/
def trail (p : CodeParams) (pool : Pool) (k : ℕ) : SearchState := (start p pool).after p k

lemma trail_zero (p : CodeParams) (pool : Pool) : trail p pool 0 = start p pool := rfl

lemma trail_succ (p : CodeParams) (pool : Pool) (k : ℕ) :
    trail p pool (k + 1) = (trail p pool k).next p := after_succ _ _ _

lemma trail_add (p : CodeParams) (pool : Pool) (i j : ℕ) :
    trail p pool (i + j) = (trail p pool i).after p j := after_add _ _ _ _

theorem sound_trail (hpool : p.Accepts pool) (k : ℕ) : Sound p pool (trail p pool k) := by
  induction k with
  | zero => exact sound_start hpool
  | succ k ih =>
    rw [trail_succ]
    by_cases hopen : p.parities < (trail p pool k).pool.length
    · obtain ⟨move, h⟩ := ih.exists_step hopen
      exact ih.step hpool h
    · rw [next_of_converged (Nat.le_of_not_lt hopen)]
      exact ih

theorem exists_step_trail (hpool : p.Accepts pool) {k : ℕ}
    (hopen : p.parities < (trail p pool k).pool.length) :
    ∃ move, Step p (trail p pool k) move (trail p pool (k + 1)) := by
  rw [trail_succ]
  exact (sound_trail hpool k).exists_step hopen

/-- A search that is over stays as it is. -/
lemma after_eq_of_converged (h : s.pool.length ≤ p.parities) (k : ℕ) : s.after p k = s := by
  induction k with
  | zero => rfl
  | succ k ih => rw [after_succ, ih, next_of_converged h]

/-- Before a state in which the search is not over, it was not over either. -/
lemma open_of_le {i j : ℕ} (hij : i ≤ j) (h : p.parities < (trail p pool j).pool.length) :
    p.parities < (trail p pool i).pool.length := by
  by_contra hi
  obtain ⟨k, rfl⟩ := Nat.exists_eq_add_of_le hij
  rw [trail_add, after_eq_of_converged (Nat.le_of_not_lt hi)] at h
  exact hi h

/-- The move of the next step, if the search is not over. -/
def move? (p : CodeParams) (s : SearchState) : Option Move :=
  if s.isConverged p then none else (s.advance? p).map Prod.fst

theorem move?_eq_some_iff :
    s.move? p = some move ↔ p.parities < s.pool.length ∧ Step p s move (s.next p) := by
  unfold move?
  by_cases hconv : s.pool.length ≤ p.parities
  · rw [if_pos (isConverged_eq_true_iff.mpr hconv)]
    simp [Nat.not_lt_of_le hconv]
  · have hopen : p.parities < s.pool.length := Nat.lt_of_not_le hconv
    rw [if_neg (by rwa [isConverged_eq_true_iff])]
    constructor
    · intro h
      obtain ⟨⟨move', s'⟩, hadvance, rfl⟩ := Option.map_eq_some_iff.mp h
      have hstep := step_of_advance? hadvance
      exact ⟨hopen, by rwa [next_of_step hopen hstep]⟩
    · rintro ⟨-, hstep⟩
      rw [advance?_of_step hstep]
      rfl

end SearchState

end FlatXor
