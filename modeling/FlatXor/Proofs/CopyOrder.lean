import FlatXor.Proofs.Copies

/-!
# The order of the copies

The place of a copy tells its history. Those in the pool that were never selected keep their
initial order. Behind them stand those that were given back, in the order in which that last
happened. Those in use stand in the order in which they were last selected. A step changes
the history of the copy that it moves and of no other, so each of the three orders is kept.
-/
namespace FlatXor

namespace SearchState

variable {p : CodeParams} {pool : Pool} {k : ℕ} {t t' : Transfer pool.length}

/-- Among the first `k` steps the one after `a` others is the last that makes the transfer. -/
def LastAt (p : CodeParams) (pool : Pool) (k : ℕ) (t : Transfer pool.length) (a : ℕ) : Prop :=
  IsGreatest {j | j < k ∧ transferAt p pool j = some t} a

/-- Both transfers are made in the first `k` steps, and the last time of the first comes
before the last time of the second. -/
def Earlier (p : CodeParams) (pool : Pool) (k : ℕ) (t t' : Transfer pool.length) : Prop :=
  ∃ a b, LastAt p pool k t a ∧ LastAt p pool k t' b ∧ a < b

/-- The copies that the first `k` steps do not select, in their initial order. -/
def fresh (p : CodeParams) (pool : Pool) (k : ℕ) : List (Fin pool.length) :=
  (List.finRange pool.length).filter fun i =>
    decide (∀ j < k, transferAt p pool j ≠ some (.select i))

lemma lastAt_self (h : transferAt p pool k = some t) : LastAt p pool (k + 1) t k :=
  ⟨⟨Nat.lt_succ_self k, h⟩, fun _ hj => Nat.le_of_lt_succ hj.1⟩

lemma LastAt.lt {a : ℕ} (h : LastAt p pool k t a) : a < k := h.1.1

/-- A step that does not make the transfer leaves its last time. -/
lemma LastAt.succ {a : ℕ} (h : LastAt p pool k t a) (hne : transferAt p pool k ≠ some t) :
    LastAt p pool (k + 1) t a := by
  constructor
  · exact ⟨Nat.lt_succ_of_lt h.lt, h.1.2⟩
  · rintro j ⟨hj, htransfer⟩
    obtain hlt | rfl := Nat.lt_succ_iff_lt_or_eq.mp hj
    · exact h.2 ⟨hlt, htransfer⟩
    · exact absurd htransfer hne

lemma Earlier.succ (h : Earlier p pool k t t') (hne : transferAt p pool k ≠ some t)
    (hne' : transferAt p pool k ≠ some t') : Earlier p pool (k + 1) t t' := by
  obtain ⟨a, b, ha, hb, hab⟩ := h
  exact ⟨a, b, ha.succ hne, hb.succ hne', hab⟩

/-- What a step does comes after all that was done before. -/
lemma LastAt.earlier {a : ℕ} (h : LastAt p pool k t a) (hne : t' ≠ t)
    (hlast : transferAt p pool k = some t') : Earlier p pool (k + 1) t t' :=
  ⟨a, k, h.succ (by simpa [hlast] using hne), lastAt_self hlast, h.lt⟩

lemma fresh_zero (p : CodeParams) (pool : Pool) : fresh p pool 0 = List.finRange pool.length := by
  simp [fresh]

/-- A step that selects a copy takes it out of those that were never selected. -/
lemma fresh_succ (p : CodeParams) (pool : Pool) (k : ℕ) :
    fresh p pool (k + 1) =
      (fresh p pool k).filter fun i => decide (transferAt p pool k ≠ some (.select i)) := by
  simp only [fresh, List.filter_filter]
  congr 1
  funext i
  simp only [Nat.forall_lt_succ_right, Bool.decide_and]
  rw [Bool.and_comm]

/-- The copy was selected and has not been given back since. -/
def Held (p : CodeParams) (pool : Pool) (k : ℕ) (i : Fin pool.length) : Prop :=
  ∃ a, LastAt p pool k (.select i) a ∧ ∀ b < k, transferAt p pool b = some (.giveBack i) → b < a

/-- The copy was given back and has not been selected since. -/
def Returned (p : CodeParams) (pool : Pool) (k : ℕ) (i : Fin pool.length) : Prop :=
  Earlier p pool k (.select i) (.giveBack i)

variable {i : Fin pool.length}

lemma Held.succ (h : Held p pool k i) (hselect : transferAt p pool k ≠ some (.select i))
    (hgive : transferAt p pool k ≠ some (.giveBack i)) : Held p pool (k + 1) i := by
  obtain ⟨a, ha, hback⟩ := h
  refine ⟨a, ha.succ hselect, ?_⟩
  intro b hb htransfer
  obtain hlt | rfl := Nat.lt_succ_iff_lt_or_eq.mp hb
  · exact hback b hlt htransfer
  · exact absurd htransfer hgive

lemma held_of_select (h : transferAt p pool k = some (.select i)) : Held p pool (k + 1) i := by
  refine ⟨k, lastAt_self h, ?_⟩
  intro b hb htransfer
  obtain hlt | rfl := Nat.lt_succ_iff_lt_or_eq.mp hb
  · exact hlt
  · rw [h] at htransfer
    cases htransfer

lemma Held.returned (h : Held p pool k i) (hgive : transferAt p pool k = some (.giveBack i)) :
    Returned p pool (k + 1) i := by
  obtain ⟨a, ha, -⟩ := h
  exact ha.earlier (by simp) hgive

/-- A step that makes none of the transfers leaves their order. -/
lemma pairwise_succ {transfer : Fin pool.length → Transfer pool.length}
    {copies : List (Fin pool.length)}
    (h : copies.Pairwise fun i j => Earlier p pool k (transfer i) (transfer j))
    (hne : ∀ i ∈ copies, transferAt p pool k ≠ some (transfer i)) :
    copies.Pairwise fun i j => Earlier p pool (k + 1) (transfer i) (transfer j) :=
  h.imp_of_mem fun hi hj hearlier => hearlier.succ (hne _ hi) (hne _ hj)

/-- The copy for which the transfer is made now comes behind those for which it was made
before. -/
lemma pairwise_succ_append {transfer : Fin pool.length → Transfer pool.length}
    (hinj : Function.Injective transfer) {copies : List (Fin pool.length)}
    (h : copies.Pairwise fun i j => Earlier p pool k (transfer i) (transfer j))
    (hmade : ∀ j ∈ copies, ∃ a, LastAt p pool k (transfer j) a) (hne : ∀ j ∈ copies, j ≠ i)
    (hlast : transferAt p pool k = some (transfer i)) :
    (copies ++ [i]).Pairwise fun i j => Earlier p pool (k + 1) (transfer i) (transfer j) := by
  have hother : ∀ j ∈ copies, transfer i ≠ transfer j := by
    intro j hj heq
    exact hne j hj (hinj heq).symm
  rw [List.pairwise_append]
  refine ⟨pairwise_succ h ?_, List.pairwise_singleton _ _, ?_⟩
  · intro j hj
    simpa [hlast] using hother j hj
  · intro j hj i' hi'
    obtain rfl := List.mem_singleton.mp hi'
    obtain ⟨a, ha⟩ := hmade j hj
    exact ha.earlier (hother j hj) hlast

/-- The copies stand in the order of their histories. -/
structure InOrder (p : CodeParams) (pool : Pool) (k : ℕ) : Prop where
  /-- In the pool those that were never selected are followed by those that were given back,
  ordered by the last time that this happened. -/
  pool_order : ∃ returned, (copiesAt p pool k).pool = fresh p pool k ++ returned ∧
    (∀ i ∈ returned, Returned p pool k i) ∧
    returned.Pairwise fun i j => Earlier p pool k (.giveBack i) (.giveBack j)
  /-- Those in use were selected and not given back since. -/
  used_held : ∀ i ∈ (copiesAt p pool k).used, Held p pool k i
  /-- From the oldest to the latest they are ordered by the last time they were selected. -/
  used_order : (copiesAt p pool k).used.reverse.Pairwise
    fun i j => Earlier p pool k (.select i) (.select j)

theorem inOrder_zero (p : CodeParams) (pool : Pool) : InOrder p pool 0 where
  pool_order := ⟨[], by simp [copiesAt, Copies.start, fresh_zero], by simp, .nil⟩
  used_held := by simp [copiesAt, Copies.start]
  used_order := by simp [copiesAt, Copies.start]

lemma InOrder.succ_of_none (h : InOrder p pool k) (hnone : transferAt p pool k = none) :
    InOrder p pool (k + 1) := by
  have hne : ∀ t, transferAt p pool k ≠ some t := by simp [hnone]
  have hfresh : fresh p pool (k + 1) = fresh p pool k := by simp [fresh_succ, hnone]
  obtain ⟨returned, hpool, hreturned, horder⟩ := h.pool_order
  rw [← copiesAt_succ_of_none hnone] at hpool
  constructor
  · refine ⟨returned, by rw [hpool, hfresh], ?_, pairwise_succ horder fun _ _ => hne _⟩
    exact fun i hi => (hreturned i hi).succ (hne _) (hne _)
  · rw [copiesAt_succ_of_none hnone]
    exact fun i hi => (h.used_held i hi).succ (hne _) (hne _)
  · rw [copiesAt_succ_of_none hnone]
    exact pairwise_succ h.used_order fun _ _ => hne _

/-- The copy that is selected leaves its place in the pool, and is the latest in use. -/
lemma InOrder.succ_of_select (h : InOrder p pool k)
    (hselect : transferAt p pool k = some (.select i)) : InOrder p pool (k + 1) := by
  have hgive : ∀ j, transferAt p pool k ≠ some (.giveBack j) := by simp [hselect]
  have hother : ∀ j, j ≠ i → transferAt p pool k ≠ some (.select j) := by
    intro j hj
    simpa [hselect] using hj.symm
  have hnodup := List.nodup_append.mp (tracks_copiesAt p pool k).nodup
  have hmem : i ∈ (copiesAt p pool k).pool := allows_transferAt hselect
  have hne : ∀ j ∈ (copiesAt p pool k).used, j ≠ i :=
    fun j hj => (hnodup.2.2 i hmem j hj).symm
  obtain ⟨returned, hpool, hreturned, horder⟩ := h.pool_order
  constructor
  · refine ⟨returned.filter (· != i), ?_, ?_, ?_⟩
    · have hfresh : fresh p pool (k + 1) = (fresh p pool k).filter (· != i) := by
        simp [fresh_succ, hselect, eq_comm, bne, beq_eq_decide]
      rw [copiesAt_succ hselect, hfresh, ← List.filter_append, ← hpool]
      exact hnodup.1.erase_eq_filter i
    · intro j hj
      obtain ⟨hj, hji⟩ := List.mem_filter.mp hj
      exact (hreturned j hj).succ (hother j (by simpa using hji)) (hgive j)
    · exact pairwise_succ (horder.sublist List.filter_sublist) fun j _ => hgive j
  · rw [copiesAt_succ hselect]
    intro j hj
    obtain rfl | hj := List.mem_cons.mp hj
    · exact held_of_select hselect
    · exact (h.used_held j hj).succ (hother j (hne j hj)) (hgive j)
  · rw [copiesAt_succ hselect]
    simp only [Copies.apply, List.reverse_cons]
    apply pairwise_succ_append (fun _ _ => Transfer.select.inj) h.used_order _ _ hselect
    · intro j hj
      obtain ⟨a, ha, -⟩ := h.used_held j (List.mem_reverse.mp hj)
      exact ⟨a, ha⟩
    · intro j hj
      exact hne j (List.mem_reverse.mp hj)

/-- The copy that is given back was the latest in use, and is the last of the pool. -/
lemma InOrder.succ_of_giveBack (h : InOrder p pool k)
    (hgive : transferAt p pool k = some (.giveBack i)) : InOrder p pool (k + 1) := by
  have hselect : ∀ j, transferAt p pool k ≠ some (.select j) := by simp [hgive]
  have hother : ∀ j, j ≠ i → transferAt p pool k ≠ some (.giveBack j) := by
    intro j hj
    simpa [hgive] using hj.symm
  obtain ⟨used, hused⟩ := List.head?_eq_some_iff.mp (allows_transferAt hgive)
  have hnodup := List.nodup_append.mp (tracks_copiesAt p pool k).nodup
  rw [hused] at hnodup
  have hheld := h.used_held
  have hlatest := h.used_order
  rw [hused] at hheld hlatest
  have hused' : (copiesAt p pool (k + 1)).used = used := by
    simp [copiesAt_succ hgive, Copies.apply, hused]
  obtain ⟨returned, hpool, hreturned, horder⟩ := h.pool_order
  have hne : ∀ j ∈ returned, j ≠ i := by
    intro j hj
    exact hnodup.2.2 j (by simp [hpool, hj]) i List.mem_cons_self
  constructor
  · refine ⟨returned ++ [i], ?_, ?_, ?_⟩
    · have hfresh : fresh p pool (k + 1) = fresh p pool k := by simp [fresh_succ, hgive]
      simp [copiesAt_succ hgive, Copies.apply, hpool, hfresh]
    · intro j hj
      obtain hj | hj := List.mem_append.mp hj
      · exact (hreturned j hj).succ (hselect j) (hother j (hne j hj))
      · obtain rfl := List.mem_singleton.mp hj
        exact (hheld j List.mem_cons_self).returned hgive
    · apply pairwise_succ_append (fun _ _ => Transfer.giveBack.inj) horder _ hne hgive
      intro j hj
      obtain ⟨-, b, -, hb, -⟩ := hreturned j hj
      exact ⟨b, hb⟩
  · rw [hused']
    intro j hj
    have hji : j ≠ i := by
      rintro rfl
      exact (List.nodup_cons.mp hnodup.2.1).1 hj
    exact (hheld j (List.mem_cons_of_mem i hj)).succ (hselect j) (hother j hji)
  · rw [hused']
    rw [List.reverse_cons] at hlatest
    exact pairwise_succ (List.pairwise_append.mp hlatest).1 fun j _ => hselect j

theorem inOrder (p : CodeParams) (pool : Pool) (k : ℕ) : InOrder p pool k := by
  induction k with
  | zero => exact inOrder_zero p pool
  | succ k ih =>
    cases htransfer : transferAt p pool k with
    | none => exact ih.succ_of_none htransfer
    | some t =>
      cases t with
      | select i => exact ih.succ_of_select htransfer
      | giveBack i => exact ih.succ_of_giveBack htransfer

variable {s s' : SearchState} {move : Move}

lemma Step.length_pool_le (h : Step p s move s') : s.pool.length ≤ s'.pool.length + 1 := by
  cases h with
  | cover _ _ _ hpool =>
    simp only [hpool, List.length_append, List.length_cons]
    omega
  | rollover _ _ _ hpool =>
    simp only [hpool, List.length_append, List.length_cons]
    omega
  | backtrack _ _ =>
    simp only [List.length_append]
    omega

/-- A step is made only while there are more candidates than parities, and takes one. -/
theorem min_le_length_pool (p : CodeParams) (pool : Pool) (k : ℕ) :
    min p.parities pool.length ≤ (trail p pool k).pool.length := by
  induction k with
  | zero => exact Nat.min_le_right _ _
  | succ k ih =>
    rw [trail_succ]
    cases hmove : (trail p pool k).move? p with
    | none =>
      rw [next_of_move?_eq_none hmove]
      exact ih
    | some move =>
      obtain ⟨hopen, hstep⟩ := move?_eq_some_iff.mp hmove
      have hlen := hstep.length_pool_le
      omega

/-- A search that is over has as many candidates as parities, unless it began with fewer. -/
theorem length_pool_of_converged (hpool : p.Accepts pool)
    (hconv : (trail p pool k).pool.length ≤ p.parities) :
    (trail p pool k).pool.length = min p.parities pool.length := by
  have hmin := min_le_length_pool p pool k
  have hlen := (sound_trail hpool k).length_add
  omega

end SearchState

namespace Search

open SearchState

/-- What a run that succeeds leaves: the candidates of the initial pool, as many of them in
the final pool as there are parities. -/
theorem outcome_of_run {p : CodeParams} {pool : Pool} {detect : Bool} {maxSteps : Option ℕ}
    {o : SearchOutcome} (hpool : p.Accepts pool)
    (hrun : (start p pool detect).run maxSteps = some (.ok o)) :
    o.params = p ∧ (o.pool ++ o.used).Perm pool ∧ o.pool.length = min p.parities pool.length := by
  obtain ⟨k, -, hconv, rfl⟩ := exists_converged_of_run hrun
  have hlen := length_pool_of_converged hpool (start_isConverged_after.mp hconv)
  rw [outcome, start_after_params, start_after_state]
  exact ⟨rfl, (sound_trail hpool k).perm, hlen⟩

/-- Each candidate of the initial pool is in one place, in the pool or in use. In the pool
the ones that were never selected keep their order, and behind them stand the ones that
were given back, in the order in which they came. Those in use stand in the order of their
selection. Only parities of the code are needed. A run that succeeds leaves as many
candidates as there are parities, unless it began with fewer. -/
theorem copies_stay_in_order {p : CodeParams} {pool : Pool} {detect : Bool} {s : Search}
    (hs : Begins p detect pool s) :
    (∀ k, Tracks pool (copiesAt p pool k) (s.after k).state ∧
      Option.Rel (Transfer.Describes pool) (s.moveAt k) (transferAt p pool k) ∧
      InOrder p pool k ∧
      (s.after k).state.pool.length + (s.after k).state.used.length = pool.length ∧
      (s.after k).state.needed.isSubset p.full = true) ∧
    ∀ maxSteps o, s.run maxSteps = some (.ok o) → o.pool.length = min p.parities pool.length := by
  have hpool := hs.accepts
  rw [hs.eq_start]
  constructor
  · intro k
    have hsound := sound_trail hpool k
    rw [moveAt, start_after_params, start_after_state]
    refine ⟨tracks_copiesAt p pool k, describes_transferAt p pool k, inOrder p pool k,
      hsound.length_add, ?_⟩
    exact ParitySet.isSubset_eq_true_iff.mpr hsound.needed_subset
  · intro maxSteps o hrun
    obtain ⟨k, hends⟩ := exists_ends_of_run hrun
    obtain ⟨hconv, ho⟩ | ⟨_, _, ho⟩ | ⟨_, _, _, ho, _⟩ := hends.cause
    · have hlen := length_pool_of_converged hpool (start_isConverged_after.mp hconv)
      rw [Except.ok.inj ho, outcome, start_after_state]
      exact hlen
    · cases ho
    · cases ho

/-- The code with four parities and weight two. -/
def fourTwo : CodeParams := ⟨4, .two, by decide, by decide⟩

/-- A search of six candidates, four of them equal, that takes back its first selection. -/
def returnedFirst : Search :=
  start fourTwo [⟨3⟩, ⟨5⟩, ⟨3⟩, ⟨3⟩, ⟨3⟩, ⟨10⟩] true

/-- When it is over, the first candidate is the last of the four that are left. -/
theorem returnedFirst_in_order :
    Begins fourTwo true returnedFirst.state.pool returnedFirst ∧
      ((copiesAt fourTwo returnedFirst.state.pool 4).pool.map Fin.val = [2, 3, 4, 0] ∧
        (fresh fourTwo returnedFirst.state.pool 4).map Fin.val = [2, 3, 4]) ∧
      Returned fourTwo returnedFirst.state.pool 4 ⟨0, by decide⟩ ∧
      ∃ o, returnedFirst.run none = some (.ok o) ∧ o.pool.length = 4 := by
  have hs : Begins fourTwo true returnedFirst.state.pool returnedFirst := .ofPool rfl
  have hcopies : (copiesAt fourTwo returnedFirst.state.pool 4).pool.map Fin.val = [2, 3, 4, 0] := by
    decide +kernel
  have hfresh : (fresh fourTwo returnedFirst.state.pool 4).map Fin.val = [2, 3, 4] := by
    decide +kernel
  have hrun : returnedFirst.run none = some (.ok (returnedFirst.after 4).outcome) := by
    decide +kernel
  refine ⟨hs, ⟨hcopies, hfresh⟩, ?_, _, hrun, ?_⟩
  · obtain ⟨returned, hpool, hreturned, -⟩ := ((copies_stay_in_order hs).1 4).2.2.1.pool_order
    have hlast : returned.map Fin.val = [0] := by
      simpa [hpool, hfresh] using hcopies
    obtain ⟨i, hi, hzero⟩ : ∃ i ∈ returned, i.val = 0 := by
      simpa using List.mem_map.mp (hlast ▸ List.mem_singleton_self 0)
    obtain rfl : i = ⟨0, by decide⟩ := Fin.ext hzero
    exact hreturned _ hi
  · exact (copies_stay_in_order hs).2 none _ hrun

end Search

end FlatXor
