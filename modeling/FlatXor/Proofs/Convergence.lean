import FlatXor.Proofs.Trials

/-!
# Whether a search converges

The stack has to grow `n - m` times. Growing once more takes one round of trials
or does not happen at all, which a look at the state after a step back decides.
So a search converges within `n - m` rounds, or it sticks in one of them.
-/
namespace FlatXor

namespace SearchState

variable {p : CodeParams} {pool : Pool}

/-- The step after `k` others takes a selection back and leaves the search stuck. -/
structure SticksAt (p : CodeParams) (pool : Pool) (k : ℕ) : Prop where
  before : p.parities < (trail p pool k).pool.length
  back : ∃ c, Step p (trail p pool k) (.backtrack c) (trail p pool (k + 1))
  stuck : Stuck p (trail p pool (k + 1))

lemma SticksAt.resumed (hpool : p.Accepts pool) {k : ℕ} (h : SticksAt p pool k) :
    Resumed p (trail p pool (k + 1)) := by
  obtain ⟨c, hc⟩ := h.back
  exact resumed_of_backtrack hpool h.before hc

/-- A search that sticks never converges. -/
theorem SticksAt.open_trail (hpool : p.Accepts pool) {k : ℕ} (h : SticksAt p pool k) (i : ℕ) :
    p.parities < (trail p pool i).pool.length := by
  have hlate : p.parities < (trail p pool (k + 1 + i)).pool.length := by
    rw [trail_add]
    exact (h.resumed hpool).open_after h.stuck i
  exact open_of_le (Nat.le_add_left i (k + 1)) hlate

/-- The queue is part of the pool, which is never larger than at the start. -/
lemma length_queue_le (hpool : p.Accepts pool) (k : ℕ) :
    (trail p pool k).queue.length ≤ pool.length := by
  have hlen := (sound_trail hpool k).length_add
  have hfilter : (trail p pool k).queue.length ≤ (trail p pool k).pool.length :=
    List.length_filter_le _ _
  omega

/-- After a step back the stack grows beyond its old height within one round of
trials, if a candidate inside the needed set can be followed. -/
theorem exists_gain_trail (hpool : p.Accepts pool) {k : ℕ} {c x : ParitySet}
    (hopen : p.parities < (trail p pool k).pool.length)
    (h : Step p (trail p pool k) (.backtrack c) (trail p pool (k + 1)))
    (hx : x ∈ (trail p pool (k + 1)).pool) (hsub : x ⊆ (trail p pool (k + 1)).needed)
    (hfollow : HasFollowUp p (trail p pool (k + 1)) x) :
    ∃ j ≤ 2 * (trail p pool (k + 1)).queue.length,
      (trail p pool (k + 1 + j)).used.length = (trail p pool k).used.length + 1 := by
  obtain ⟨i, hi, hgain⟩ := (resumed_of_backtrack hpool hopen h).exists_gain hx hsub hfollow
  refine ⟨2 * i + 2, by omega, ?_⟩
  rw [trail_add, hgain, h.used_of_backtrack, List.length_cons]

/-- Each further selection costs at most one step that makes it, or one step back and a
round of trials. -/
theorem reaches_depth_or_sticks (hpool : p.Accepts pool) {depth : ℕ}
    (hdepth : depth ≤ pool.length - p.parities) :
    (∃ k ≤ depth * (2 * pool.length + 1), (trail p pool k).used.length = depth) ∨
      ∃ k, k + 2 * pool.length < (pool.length - p.parities) * (2 * pool.length + 1) ∧
        SticksAt p pool k := by
  induction depth with
  | zero => exact .inl ⟨0, Nat.zero_le _, rfl⟩
  | succ depth ih =>
    obtain ⟨k, hk, hlen⟩ | hsticks := ih (Nat.le_of_succ_le hdepth)
    · have hsum := (sound_trail hpool k).length_add
      have hopen : p.parities < (trail p pool k).pool.length := by omega
      have hcost : (depth + 1) * (2 * pool.length + 1) =
          depth * (2 * pool.length + 1) + (2 * pool.length + 1) := Nat.succ_mul _ _
      have hbound := Nat.mul_le_mul_right (2 * pool.length + 1) hdepth
      obtain ⟨move, hstep⟩ := exists_step_trail hpool hopen
      cases move with
      | cover c =>
        refine .inl ⟨k + 1, by omega, ?_⟩
        rw [hstep.used_of_cover, List.length_cons, hlen]
      | rollover c =>
        refine .inl ⟨k + 1, by omega, ?_⟩
        rw [hstep.used_of_rollover, List.length_cons, hlen]
      | backtrack c =>
        by_cases hstuck : Stuck p (trail p pool (k + 1))
        · exact .inr ⟨k, by omega, hopen, ⟨c, hstep⟩, hstuck⟩
        · unfold Stuck at hstuck
          push Not at hstuck
          obtain ⟨x, hx, hsub, hfollow⟩ := hstuck
          obtain ⟨j, hj, hgain⟩ := exists_gain_trail hpool hopen hstep hx hsub hfollow
          have hqueue := length_queue_le hpool (k + 1)
          exact .inl ⟨k + 1 + j, by omega, by rw [hgain, hlen]⟩
    · exact .inr hsticks

/-- A search converges in time or sticks in time. -/
theorem converges_or_sticks (hpool : p.Accepts pool) :
    (∃ k ≤ (pool.length - p.parities) * (2 * pool.length + 1),
        (trail p pool k).pool.length ≤ p.parities) ∨
      ∃ k, k + 2 * pool.length < (pool.length - p.parities) * (2 * pool.length + 1) ∧
        SticksAt p pool k := by
  obtain ⟨k, hk, hlen⟩ | hsticks := reaches_depth_or_sticks hpool (le_refl _)
  · have hsum := (sound_trail hpool k).length_add
    exact .inl ⟨k, hk, by omega⟩
  · exact .inr hsticks

end SearchState

namespace Search

open SearchState (trail Step Stuck HasFollowUp SticksAt)

/-- A search never converges if and only if some step back leaves it in a state in which
no candidate inside the needed set can be followed by another. After a step back to
any other state the stack outgrows all its former heights within two steps for each
candidate inside. -/
theorem never_converges_iff_stuck {p : CodeParams} {pool : Pool} {detect : Bool} {s : Search}
    (hs : Begins p detect pool s) :
    ((∀ k, (s.after k).isConverged = false) ↔
      ∃ k c, s.moveAt k = some (.backtrack c) ∧ Stuck p (s.after (k + 1)).state) ∧
    ∀ k c, s.moveAt k = some (.backtrack c) →
      ∀ x ∈ (s.after (k + 1)).state.pool, x ⊆ (s.after (k + 1)).state.needed →
        HasFollowUp p (s.after (k + 1)).state x →
        ∃ j ≤ 2 * (s.after (k + 1)).state.pool.countP
            (fun c => c.isSubset (s.after (k + 1)).state.needed),
          ∀ i ≤ k + 1,
            (s.after i).state.used.length < (s.after (k + 1 + j)).state.used.length := by
  have hpool := hs.accepts
  rw [hs.eq_start]
  simp only [isConverged_eq_false_iff, start_after_params, start_after_state,
    start_moveAt_eq_some_iff]
  refine ⟨⟨fun hnever => ?_, ?_⟩, ?_⟩
  · obtain ⟨k, -, hconv⟩ | ⟨k, -, hsticks⟩ := SearchState.converges_or_sticks hpool
    · exact absurd (hnever k) (Nat.not_lt_of_le hconv)
    · obtain ⟨c, hc⟩ := hsticks.back
      exact ⟨k, c, ⟨hsticks.before, hc⟩, hsticks.stuck⟩
  · rintro ⟨k, c, ⟨hopen, hstep⟩, hstuck⟩
    exact SticksAt.open_trail hpool ⟨hopen, ⟨c, hstep⟩, hstuck⟩
  · rintro k c ⟨hopen, hstep⟩ x hx hsub hfollow
    obtain ⟨j, hj, hgain⟩ := SearchState.exists_gain_trail hpool hopen hstep hx hsub hfollow
    refine ⟨j, by rwa [List.countP_eq_length_filter], fun i hi => ?_⟩
    -- the stack is one lower after the step back than before it
    have hpeak := SearchState.used_length_le_succ hpool hi
    have hback := congrArg List.length hstep.used_of_backtrack
    rw [List.length_cons] at hback
    omega

/-- A search of five equal candidates for three parities. None of them can follow
another. -/
def fiveEqual : Search :=
  start threeTwo [⟨3⟩, ⟨3⟩, ⟨3⟩, ⟨3⟩, ⟨3⟩] true

theorem begins_fiveEqual : Begins fiveEqual.params true fiveEqual.state.pool fiveEqual :=
  .ofPool rfl

theorem fiveEqual_never_converges :
    Begins fiveEqual.params true fiveEqual.state.pool fiveEqual ∧
      ∀ k, (fiveEqual.after k).isConverged = false :=
  ⟨begins_fiveEqual, (never_converges_iff_stuck begins_fiveEqual).1.mpr
    ⟨1, ⟨3⟩, by decide +kernel, by decide +kernel⟩⟩

end Search

end FlatXor
