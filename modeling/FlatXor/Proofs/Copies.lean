import FlatXor.Proofs.Backtracking
import FlatXor.Proofs.RunLoop
import Mathlib.Data.List.FinRange
import Mathlib.Order.Bounds.Basic

/-!
# The copies of the candidates

A candidate may occur more than once in a pool, so what becomes of an entry is told of its
copy, which is known by its place in the initial pool. A step moves the copies as it moves
the entries. No copy is lost or doubled. The copies in the pool that were never selected
keep their initial order, and behind them stand those that were given back, in the order in
which they came. The copies in use stand in the order of their selection.
-/
namespace FlatXor

/-- Where the copies are. Those in use stand latest first. -/
structure Copies (n : ℕ) where
  pool : List (Fin n)
  used : List (Fin n)

/-- What a step does with a copy. -/
inductive Transfer (n : ℕ) where
  | select (i : Fin n)
  | giveBack (i : Fin n)
  deriving DecidableEq

namespace Transfer

/-- Does the move do with the candidate what the transfer does with its copy? -/
def Describes (pool : Pool) (move : Move) : Transfer pool.length → Prop
  | select i => move = .cover (pool.get i) ∨ move = .rollover (pool.get i)
  | giveBack i => move = .backtrack (pool.get i)

end Transfer

namespace Copies

variable {n : ℕ}

/-- All copies are in the pool. -/
def start (n : ℕ) : Copies n := ⟨List.finRange n, []⟩

/-- A copy that is selected leaves the pool, and one that is given back goes to its end. -/
def apply (copies : Copies n) : Transfer n → Copies n
  | .select i => ⟨copies.pool.erase i, i :: copies.used⟩
  | .giveBack i => ⟨copies.pool ++ [i], copies.used.erase i⟩

/-- Is the copy where the transfer takes it from? -/
def Allows (copies : Copies n) : Transfer n → Prop
  | .select i => i ∈ copies.pool
  | .giveBack i => copies.used.head? = some i

/-- A transfer moves one copy and keeps the others. -/
theorem perm_apply {copies : Copies n} {t : Transfer n} (h : copies.Allows t) :
    ((copies.apply t).pool ++ (copies.apply t).used).Perm (copies.pool ++ copies.used) := by
  cases t with
  | select i =>
    have hpool : (i :: copies.pool.erase i).Perm copies.pool := (List.perm_cons_erase h).symm
    exact List.perm_middle.trans (hpool.append_right copies.used)
  | giveBack i =>
    obtain ⟨used, hused⟩ := List.head?_eq_some_iff.mp h
    simp [apply, hused]

end Copies

namespace SearchState

/-- The place in the pool of the first candidate that qualifies. -/
def place (p : CodeParams) (s : SearchState) : ℕ :=
  s.pool.findIdx fun c => decide (Qualifies p s.needed c)

/-- The transfer that a step makes when the copies stand where their entries are. A
selection takes the copy at the place of the first candidate that qualifies, and a step
back the copy selected last. -/
def transfer? {n : ℕ} (p : CodeParams) (s : SearchState) (copies : Copies n) :
    Option (Transfer n) :=
  match s.move? p with
  | none => none
  | some (.backtrack _) => copies.used.head?.map .giveBack
  | some _ => copies.pool[s.place p]?.map .select

/-- The copies after `k` steps of a search of `pool`. -/
def copiesAt (p : CodeParams) (pool : Pool) : ℕ → Copies pool.length
  | 0 => .start pool.length
  | k + 1 =>
    match (trail p pool k).transfer? p (copiesAt p pool k) with
    | some t => (copiesAt p pool k).apply t
    | none => copiesAt p pool k

/-- The transfer that the step after `k` others makes. -/
def transferAt (p : CodeParams) (pool : Pool) (k : ℕ) : Option (Transfer pool.length) :=
  (trail p pool k).transfer? p (copiesAt p pool k)

variable {p : CodeParams} {pool : Pool} {s s' : SearchState} {move : Move} {k : ℕ}

lemma copiesAt_succ {t : Transfer pool.length} (h : transferAt p pool k = some t) :
    copiesAt p pool (k + 1) = (copiesAt p pool k).apply t := by
  have ht : (trail p pool k).transfer? p (copiesAt p pool k) = some t := h
  simp [copiesAt, ht]

lemma copiesAt_succ_of_none (h : transferAt p pool k = none) :
    copiesAt p pool (k + 1) = copiesAt p pool k := by
  have ht : (trail p pool k).transfer? p (copiesAt p pool k) = none := h
  simp [copiesAt, ht]

/-- The copies stand where the entries of the state are, and each copy in one place. -/
structure Tracks (pool : Pool) (copies : Copies pool.length) (s : SearchState) : Prop where
  map_pool : copies.pool.map pool.get = s.pool
  map_used : copies.used.map pool.get = s.used
  perm : (copies.pool ++ copies.used).Perm (List.finRange pool.length)

lemma Tracks.nodup {copies : Copies pool.length} (h : Tracks pool copies s) :
    (copies.pool ++ copies.used).Nodup :=
  h.perm.nodup_iff.mpr (List.nodup_finRange _)

theorem tracks_start (p : CodeParams) (pool : Pool) :
    Tracks pool (.start pool.length) (start p pool) where
  map_pool := by simp [Copies.start, start]
  map_used := rfl
  perm := by simp [Copies.start]

/-- The first candidate that qualifies is known by what stands before it. -/
lemma place_eq_length {front back : Pool} {c : ParitySet}
    (hfront : ∀ d ∈ front, ¬ Qualifies p s.needed d) (hc : Qualifies p s.needed c)
    (hpool : s.pool = front ++ c :: back) : s.place p = front.length := by
  have hnone : front.findIdx (fun d => decide (Qualifies p s.needed d)) = front.length :=
    List.findIdx_eq_length_of_false (by simpa using hfront)
  rw [place, hpool, List.findIdx_append, hnone, if_neg (Nat.lt_irrefl _), List.findIdx_cons]
  simp [hc]

/-- A selection takes the first candidate that qualifies and keeps the order of the others. -/
theorem Step.exists_selected {c : ParitySet} (h : Step p s move s')
    (hmove : move = .cover c ∨ move = .rollover c) :
    ∃ front back, s.pool = front ++ c :: back ∧ s'.pool = front ++ back ∧ s'.used = c :: s.used ∧
      s.place p = front.length := by
  cases h with
  | @cover d front back hweight hc hfront hpool =>
    obtain rfl : d = c := by simpa using hmove
    refine ⟨front, back, hpool, rfl, rfl, place_eq_length ?_ ?_ hpool⟩
    · simpa only [qualifies_iff_of_le hweight] using hfront
    · exact (qualifies_iff_of_le hweight).mpr hc
  | @rollover d front back hweight hc hfront hpool =>
    obtain rfl : d = c := by simpa using hmove
    refine ⟨front, back, hpool, rfl, rfl, place_eq_length ?_ ?_ hpool⟩
    · simpa only [qualifies_iff_of_lt hweight] using hfront
    · exact (qualifies_iff_of_lt hweight).mpr hc
  | backtrack _ _ => simp at hmove

/-- A transfer takes a copy from where it is. -/
lemma allows_of_transfer? {n : ℕ} {copies : Copies n} {t : Transfer n}
    (h : s.transfer? p copies = some t) : copies.Allows t := by
  unfold transfer? at h
  split at h
  · cases h
  · obtain ⟨i, hi, rfl⟩ := Option.map_eq_some_iff.mp h
    exact hi
  · obtain ⟨i, hi, rfl⟩ := Option.map_eq_some_iff.mp h
    exact List.mem_of_getElem? hi

/-- When the entry behind `front` is selected, so is the copy behind as many copies. -/
lemma Tracks.select {copies : Copies pool.length} (h : Tracks pool copies s) {front back : Pool}
    {c : ParitySet} (hpool : s.pool = front ++ c :: back) (hpool' : s'.pool = front ++ back)
    (hused' : s'.used = c :: s.used) :
    ∃ i, copies.pool[front.length]? = some i ∧ pool.get i = c ∧
      Tracks pool (copies.apply (.select i)) s' := by
  have hmap := h.map_pool
  rw [hpool] at hmap
  obtain ⟨before, rest, hcopies, hbefore, hrest⟩ := List.map_eq_append_iff.mp hmap
  obtain ⟨i, behind, rfl, hi, hbehind⟩ := List.map_eq_cons_iff.mp hrest
  have hplace : copies.pool[front.length]? = some i := by
    simp [hcopies, ← hbefore]
  refine ⟨i, hplace, hi, ?_, ?_, ?_⟩
  · have hnodup := (List.nodup_append.mp h.nodup).1
    rw [hcopies] at hnodup
    have hnot : i ∉ before := by
      intro hmem
      exact (List.nodup_append.mp hnodup).2.2 i hmem i List.mem_cons_self rfl
    have herase : copies.pool.erase i = before ++ behind := by
      rw [hcopies, List.erase_append_right _ hnot, List.erase_cons_head]
    simp only [Copies.apply, herase, List.map_append, hbefore, hbehind, hpool']
  · simp only [Copies.apply, List.map_cons, hi, h.map_used, hused']
  · have hallows : copies.Allows (.select i) := List.mem_of_getElem? hplace
    exact (Copies.perm_apply hallows).trans h.perm

/-- When the latest entry of the stack is taken back, so is its latest copy. -/
lemma Tracks.giveBack {copies : Copies pool.length} (h : Tracks pool copies s) {c : ParitySet}
    (hused : s.used = c :: s'.used) (hpool' : s'.pool = s.pool ++ [c]) :
    ∃ i, copies.used.head? = some i ∧ pool.get i = c ∧
      Tracks pool (copies.apply (.giveBack i)) s' := by
  have hmap := h.map_used
  rw [hused] at hmap
  obtain ⟨i, rest, hcopies, hi, hrest⟩ := List.map_eq_cons_iff.mp hmap
  have hhead : copies.used.head? = some i := by
    simp [hcopies]
  refine ⟨i, hhead, hi, ?_, ?_, ?_⟩
  · simp only [Copies.apply, List.map_append, h.map_pool, List.map_cons, List.map_nil, hi, hpool']
  · simp only [Copies.apply, hcopies, List.erase_cons_head, hrest]
  · have hallows : copies.Allows (.giveBack i) := hhead
    exact (Copies.perm_apply hallows).trans h.perm

/-- A step moves the copy of the candidate that it moves. -/
theorem Tracks.exists_transfer {copies : Copies pool.length} (h : Tracks pool copies s)
    (hmove : s.move? p = some move) :
    ∃ t, s.transfer? p copies = some t ∧ t.Describes pool move ∧
      Tracks pool (copies.apply t) (s.next p) := by
  have hstep := (move?_eq_some_iff.mp hmove).2
  cases move with
  | cover c =>
    obtain ⟨front, back, hpool, hpool', hused', hplace⟩ := hstep.exists_selected (.inl rfl)
    obtain ⟨i, hi, rfl, htracks⟩ := h.select hpool hpool' hused'
    exact ⟨.select i, by simp [transfer?, hmove, hplace, hi], .inl rfl, htracks⟩
  | rollover c =>
    obtain ⟨front, back, hpool, hpool', hused', hplace⟩ := hstep.exists_selected (.inr rfl)
    obtain ⟨i, hi, rfl, htracks⟩ := h.select hpool hpool' hused'
    exact ⟨.select i, by simp [transfer?, hmove, hplace, hi], .inr rfl, htracks⟩
  | backtrack c =>
    obtain ⟨i, hi, rfl, htracks⟩ := h.giveBack hstep.used_of_backtrack hstep.pool_of_backtrack
    exact ⟨.giveBack i, by simp [transfer?, hmove, hi], rfl, htracks⟩

lemma next_of_move?_eq_none (h : s.move? p = none) : s.next p = s := by
  unfold move? at h
  by_cases hconv : s.isConverged p
  · rw [next, if_pos hconv]
  · rw [if_neg hconv, Option.map_eq_none_iff] at h
    simp only [next, if_neg hconv, h]

/-- The copies stand where the entries are after any number of steps. -/
theorem tracks_copiesAt (p : CodeParams) (pool : Pool) (k : ℕ) :
    Tracks pool (copiesAt p pool k) (trail p pool k) := by
  induction k with
  | zero => exact tracks_start p pool
  | succ k ih =>
    rw [trail_succ]
    cases hmove : (trail p pool k).move? p with
    | none =>
      have htransfer : transferAt p pool k = none := by simp [transferAt, transfer?, hmove]
      rw [copiesAt_succ_of_none htransfer, next_of_move?_eq_none hmove]
      exact ih
    | some move =>
      obtain ⟨t, htransfer, -, htracks⟩ := ih.exists_transfer hmove
      rw [copiesAt_succ htransfer]
      exact htracks

/-- Each step does with a copy what it does with its candidate. -/
theorem describes_transferAt (p : CodeParams) (pool : Pool) (k : ℕ) :
    Option.Rel (Transfer.Describes pool) ((trail p pool k).move? p) (transferAt p pool k) := by
  cases hmove : (trail p pool k).move? p with
  | none =>
    have htransfer : transferAt p pool k = none := by simp [transferAt, transfer?, hmove]
    rw [htransfer]
    exact .none
  | some move =>
    obtain ⟨t, htransfer, hdescribes, -⟩ := (tracks_copiesAt p pool k).exists_transfer hmove
    rw [transferAt, htransfer]
    exact .some hdescribes

lemma allows_transferAt {t : Transfer pool.length} (h : transferAt p pool k = some t) :
    (copiesAt p pool k).Allows t :=
  allows_of_transfer? h

end SearchState

end FlatXor
