import FlatXor.Proofs.Backtracking
import FlatXor.Proofs.PoolTurn
import Mathlib.Algebra.Ring.Parity

/-!
# Trials after a step back

After a step back the search covers the first candidate inside the needed set.
Either another candidate can follow it, and the stack grows beyond its old height,
or the candidate goes to the end of the pool and the state is the old one with its
pool turned. Whether a candidate can be followed depends on which others there
are, not on their order. So one round of trials decides: it finds a candidate that
can be followed, or there is none and the search turns its pool for ever.
-/
namespace FlatXor.SearchState

variable {p : CodeParams} {pool : Pool} {s : SearchState} {x : ParitySet}

/-- Can another candidate of the pool be selected right after `x`? -/
def HasFollowUp (p : CodeParams) (s : SearchState) (x : ParitySet) : Prop :=
  ∃ c ∈ s.pool.erase x, Qualifies p (s.needed.diff x) c

instance (p : CodeParams) (s : SearchState) (x : ParitySet) : Decidable (HasFollowUp p s x) :=
  inferInstanceAs (Decidable (∃ c ∈ s.pool.erase x, Qualifies p (s.needed.diff x) c))

/-- No candidate inside the needed set can be followed. -/
def Stuck (p : CodeParams) (s : SearchState) : Prop :=
  ∀ x ∈ s.pool, x ⊆ s.needed → ¬ HasFollowUp p s x

instance (p : CodeParams) (s : SearchState) : Decidable (Stuck p s) :=
  inferInstanceAs (Decidable (∀ x ∈ s.pool, x ⊆ s.needed → ¬ HasFollowUp p s x))

/-- The candidates inside the needed set, in the order of the pool. -/
def queue (s : SearchState) : Pool := s.pool.filter fun c => c.isSubset s.needed

/-- The state with its pool turned `i` times. -/
def turned (s : SearchState) (i : ℕ) : SearchState :=
  { s with pool := (Pool.turn fun c => c.isSubset s.needed)^[i] s.pool }

@[simp] lemma needed_turned (s : SearchState) (i : ℕ) : (s.turned i).needed = s.needed := rfl

@[simp] lemma used_turned (s : SearchState) (i : ℕ) : (s.turned i).used = s.used := rfl

lemma pool_turned (s : SearchState) (i : ℕ) :
    (s.turned i).pool = (Pool.turn fun c => c.isSubset s.needed)^[i] s.pool := rfl

lemma turned_succ (s : SearchState) (i : ℕ) : s.turned (i + 1) = (s.turned i).turned 1 := by
  simp only [turned, Function.iterate_succ_apply', Function.iterate_zero_apply]

lemma turned_perm (s : SearchState) (i : ℕ) : (s.turned i).pool.Perm s.pool :=
  Pool.turn_iterate_perm _ _ i

lemma mem_queue {s : SearchState} {x : ParitySet} : x ∈ s.queue ↔ x ∈ s.pool ∧ x ⊆ s.needed := by
  rw [queue, List.mem_filter, ParitySet.isSubset_eq_true_iff]

/-- Follow-ups do not depend on the order of the pool. -/
lemma hasFollowUp_turned {i : ℕ} : HasFollowUp p (s.turned i) x ↔ HasFollowUp p s x := by
  unfold HasFollowUp
  simp only [needed_turned, ((turned_perm s i).erase x).mem_iff]

lemma Stuck.turned (hs : Stuck p s) (i : ℕ) : Stuck p (s.turned i) := by
  intro x hx hsub hfollow
  exact hs x ((turned_perm s i).mem_iff.mp hx) hsub (hasFollowUp_turned.mp hfollow)

lemma Resumed.turned (hs : Resumed p s) (i : ℕ) : Resumed p (s.turned i) := by
  obtain ⟨c, hc, hsub⟩ := hs.inside
  refine ⟨⟨hs.weight_le, c, (turned_perm s i).mem_iff.mpr hc, hsub⟩, ?_⟩
  rw [(turned_perm s i).length_eq]
  exact hs.spare

/-- What qualifies is selected, though perhaps something else before it. -/
theorem exists_selection {c : ParitySet} (hc : c ∈ s.pool) (hq : Qualifies p s.needed c) :
    ∃ move s', Step p s move s' ∧ s'.used.length = s.used.length + 1 := by
  cases hadvance : s.advance? p with
  | none => exact absurd hq ((advance?_eq_none_iff.mp hadvance).1 c hc)
  | some r =>
    obtain ⟨move, s'⟩ := r
    have h : Step p s move s' := step_of_advance? hadvance
    refine ⟨move, s', h, ?_⟩
    cases move with
    | cover d => rw [h.used_of_cover, List.length_cons]
    | rollover d => rw [h.used_of_rollover, List.length_cons]
    | backtrack d =>
      cases h with
      | backtrack hstall _ => exact absurd hq (hstall c hc)

/-- A candidate with nothing inside the needed set before it, as a trial takes it. -/
structure First (s : SearchState) (x : ParitySet) (front back : Pool) : Prop where
  pool_eq : s.pool = front ++ x :: back
  inside : x ⊆ s.needed
  skipped : ∀ d ∈ front, ¬ d ⊆ s.needed

variable {front back : Pool}

/-- The state while `x` is on trial. -/
def onTrial (s : SearchState) (x : ParitySet) (front back : Pool) : SearchState :=
  ⟨s.needed.diff x, front ++ back, x :: s.used⟩

lemma Resumed.exists_first (hs : Resumed p s) : ∃ x front back, First s x front back := by
  obtain ⟨c, hc, hsub⟩ := hs.inside
  cases hqueue : s.queue with
  | nil =>
    have := mem_queue.mpr ⟨hc, hsub⟩
    simp [hqueue] at this
  | cons x rest =>
    obtain ⟨front, back, hpool, hfront, hx, -⟩ := List.filter_eq_cons_iff.mp hqueue
    exact ⟨x, front, back, hpool, by simpa using hx, by simpa using hfront⟩

/-- In the first round the trials take the queue in order. -/
lemma exists_first_turned {i : ℕ} (hi : i < s.queue.length) :
    ∃ front back, First (s.turned i) s.queue[i] front back := by
  obtain ⟨rest, hturn, hrest, -⟩ := Pool.turn_iterate_split (Nat.le_of_lt hi)
  have hcons : rest.filter (fun c => c.isSubset s.needed) =
      s.queue[i] :: s.queue.drop (i + 1) := hrest.trans (List.drop_eq_getElem_cons hi)
  obtain ⟨front, back, rfl, hfront, hx, -⟩ := List.filter_eq_cons_iff.mp hcons
  refine ⟨front, back ++ s.queue.take i, ?_, by simpa using hx, by simpa using hfront⟩
  rw [pool_turned, hturn, List.append_assoc, List.cons_append]
  rfl

lemma First.step (hs : Resumed p s) (hx : First s x front back) :
    Step p s (.cover x) (s.onTrial x front back) :=
  .cover hs.weight_le hx.inside hx.skipped hx.pool_eq

lemma First.open_onTrial (hs : Resumed p s) (hx : First s x front back) :
    p.parities < (s.onTrial x front back).pool.length := by
  have hspare := hs.spare
  rw [hx.pool_eq, List.length_append, List.length_cons] at hspare
  rw [onTrial, List.length_append]
  omega

lemma First.after_one (hs : Resumed p s) (hx : First s x front back) :
    s.after p 1 = s.onTrial x front back := by
  rw [after_succ, after_zero, next_of_step (Nat.lt_of_succ_lt hs.spare) (hx.step hs)]

lemma First.mem_erase_iff (hx : First s x front back) {c : ParitySet} :
    c ∈ s.pool.erase x ↔ c ∈ front ++ back := by
  have hperm : s.pool.Perm (x :: (front ++ back)) := hx.pool_eq ▸ List.perm_middle
  rw [(hperm.erase x).mem_iff, List.erase_cons_head]

/-- A trial that leads nowhere turns the pool. -/
theorem First.step_back (hx : First s x front back) (hfail : ¬ HasFollowUp p s x) :
    Step p (s.onTrial x front back) (.backtrack x) (s.turned 1) := by
  have hstall : ∀ d ∈ front ++ back, ¬ Qualifies p (s.needed.diff x) d :=
    fun d hd hq => hfail ⟨d, hx.mem_erase_iff.mpr hd, hq⟩
  have hturned : s.turned 1 = ⟨(s.needed.diff x).union x, front ++ back ++ [x], s.used⟩ := by
    rw [ParitySet.diff_union_of_subset hx.inside, turned, Function.iterate_one, hx.pool_eq,
      Pool.turn_append_cons (by simpa using hx.skipped) (by simpa using hx.inside)]
  rw [hturned]
  exact .backtrack hstall rfl

lemma First.after_two_of_fail (hs : Resumed p s) (hx : First s x front back)
    (hfail : ¬ HasFollowUp p s x) : s.after p 2 = s.turned 1 := by
  rw [after_succ, hx.after_one hs, next_of_step (hx.open_onTrial hs) (hx.step_back hfail)]

/-- A trial that can be followed leaves two more selections. -/
theorem First.after_two_of_followUp (hs : Resumed p s) (hx : First s x front back)
    (hfollow : HasFollowUp p s x) : (s.after p 2).used.length = s.used.length + 2 := by
  obtain ⟨c, hc, hq⟩ := hfollow
  obtain ⟨move, s', h, hlen⟩ :=
    exists_selection (s := s.onTrial x front back) (hx.mem_erase_iff.mp hc) hq
  rw [after_succ, hx.after_one hs, next_of_step (hx.open_onTrial hs) h, hlen]
  rfl

/-- As long as the trials of the first round fail, each turns the pool once. -/
theorem Resumed.after_trials (hs : Resumed p s) {i : ℕ} (hi : i ≤ s.queue.length)
    (hfail : ∀ x ∈ s.queue.take i, ¬ HasFollowUp p s x) : s.after p (2 * i) = s.turned i := by
  induction i with
  | zero => rfl
  | succ i ih =>
    rw [← List.take_append_getElem hi] at hfail
    have hprev : s.after p (2 * i) = s.turned i :=
      ih (Nat.le_of_succ_le hi) fun x hx => hfail x (List.mem_append_left _ hx)
    obtain ⟨front, back, hfirst⟩ := exists_first_turned hi
    have hlast : ¬ HasFollowUp p (s.turned i) s.queue[i] := by
      rw [hasFollowUp_turned]
      exact hfail _ (List.mem_append_right _ List.mem_cons_self)
    rw [Nat.mul_succ, after_add, hprev, hfirst.after_two_of_fail (hs.turned i) hlast, ← turned_succ]

/-- If a candidate inside the needed set can be followed, then within one round of
trials there are two more selections. -/
theorem Resumed.exists_gain (hs : Resumed p s) (hx : x ∈ s.pool) (hsub : x ⊆ s.needed)
    (hfollow : HasFollowUp p s x) :
    ∃ i < s.queue.length, (s.after p (2 * i + 2)).used.length = s.used.length + 2 := by
  obtain ⟨j, hj, rfl⟩ := List.mem_iff_getElem.mp (mem_queue.mpr ⟨hx, hsub⟩)
  have hex : ∃ i, ∃ hi : i < s.queue.length, HasFollowUp p s s.queue[i] := ⟨j, hj, hfollow⟩
  -- the first of the queue that can be followed: those before it fail
  obtain ⟨hi, hfound⟩ := Nat.find_spec hex
  have hfail : ∀ y ∈ s.queue.take (Nat.find hex), ¬ HasFollowUp p s y := by
    intro y hy hfollow
    obtain ⟨k, hk, rfl⟩ := List.mem_take_iff_getElem.mp hy
    rw [Nat.lt_min] at hk
    exact Nat.find_min hex hk.1 ⟨hk.2, hfollow⟩
  obtain ⟨front, back, hfirst⟩ := exists_first_turned hi
  refine ⟨Nat.find hex, hi, ?_⟩
  rw [after_add, hs.after_trials (Nat.le_of_lt hi) hfail,
    hfirst.after_two_of_followUp (hs.turned _) (hasFollowUp_turned.mpr hfound), used_turned]

/-- Where no candidate can be followed, all trials fail. -/
theorem Resumed.after_two_mul (hs : Resumed p s) (hstuck : Stuck p s) (i : ℕ) :
    s.after p (2 * i) = s.turned i := by
  induction i with
  | zero => rfl
  | succ i ih =>
    obtain ⟨x, front, back, hx⟩ := (hs.turned i).exists_first
    have hmem : x ∈ (s.turned i).pool := by simp [hx.pool_eq]
    have hfail : ¬ HasFollowUp p (s.turned i) x := hstuck.turned i x hmem hx.inside
    rw [Nat.mul_succ, after_add, ih, hx.after_two_of_fail (hs.turned i) hfail, ← turned_succ]

/-- The two steps of a trial that fails, and so of every trial of a stuck search. -/
theorem Resumed.trial (hs : Resumed p s) (hstuck : Stuck p s) (i : ℕ) :
    ∃ x, Step p (s.after p (2 * i)) (.cover x) (s.after p (2 * i + 1)) ∧
      p.parities < (s.after p (2 * i + 1)).pool.length ∧
      Step p (s.after p (2 * i + 1)) (.backtrack x) (s.after p (2 * i + 2)) := by
  obtain ⟨x, front, back, hx⟩ := (hs.turned i).exists_first
  have hmem : x ∈ (s.turned i).pool := by simp [hx.pool_eq]
  have hfail : ¬ HasFollowUp p (s.turned i) x := hstuck.turned i x hmem hx.inside
  have hone : s.after p (2 * i + 1) = (s.turned i).onTrial x front back := by
    rw [after_add, hs.after_two_mul hstuck, hx.after_one (hs.turned i)]
  have htwo : s.after p (2 * i + 2) = (s.turned i).turned 1 := by
    rw [after_add, hs.after_two_mul hstuck, hx.after_two_of_fail (hs.turned i) hfail]
  rw [hs.after_two_mul hstuck, hone, htwo]
  exact ⟨x, hx.step (hs.turned i), hx.open_onTrial (hs.turned i), hx.step_back hfail⟩

/-- A stuck search goes on for ever. -/
theorem Resumed.open_after (hs : Resumed p s) (hstuck : Stuck p s) (k : ℕ) :
    p.parities < (s.after p k).pool.length := by
  obtain ⟨i, rfl | rfl⟩ := Nat.even_or_odd' k
  · rw [hs.after_two_mul hstuck]
    exact Nat.lt_of_succ_lt (hs.turned i).spare
  · obtain ⟨x, -, hopen, -⟩ := hs.trial hstuck i
    exact hopen

end FlatXor.SearchState
