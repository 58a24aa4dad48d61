import FlatXor.Proofs.TupleOrder

/-!
# The successor in machine words

The next tuple is found by the indices of its slots: the search for a slot with room runs from
the right, the slot moves up, and a loop fills the slots after it. Each sum and difference is one
of 64-bit words, and each slot is read and written by its index, so that a step of this
computation can fail. On the tuples of the stream none does, and the result is the next tuple.
-/
namespace FlatXor

/-! ## The search and the loop -/

section Loops

variable {n k i : ℕ} {l : List ℕ}

lemma hasRoom_of_lt (hi : i < l.length) (hsize : l.length ≤ n) (hn : n < wordLimit) :
    hasRoom n l i = .ok (decide (l[i] + l.length < n + i)) := by
  have hlimit : n - l.length + i < wordLimit := by omega
  have hiff : l[i] < n - l.length + i ↔ l[i] + l.length < n + i := by omega
  rw [hasRoom, entryAt_of_lt hi, subIndex_of_le hsize]
  simp only [bind, Except.bind, addIndex_of_lt hlimit, hiff]
  rfl

/-- The slot `j`, if there is one, can move no further. -/
def SlotFull (n : ℕ) (l : List ℕ) (j : ℕ) : Prop :=
  ∀ h : j < l.length, n + j ≤ l[j] + l.length

/-- The search ends at the last slot with room, or there is none. -/
lemma rightmostRoom_of_le (hk : k ≤ l.length) (hsize : l.length ≤ n) (hn : n < wordLimit) :
    (∃ i, ∃ hi : i < l.length, rightmostRoom n l k = .ok (some i) ∧
      l[i] + l.length < n + i ∧ ∀ j, i < j → j < k → SlotFull n l j) ∨
    (rightmostRoom n l k = .ok none ∧ ∀ j, j < k → SlotFull n l j) := by
  induction k with
  | zero => exact .inr ⟨rfl, fun j hj => absurd hj (Nat.not_lt_zero j)⟩
  | succ i ih =>
    have hroom := hasRoom_of_lt hk hsize hn
    by_cases hfree : l[i] + l.length < n + i
    · refine .inl ⟨i, hk, ?_, hfree, fun j hij hj => absurd hij (by omega)⟩
      rw [rightmostRoom, hroom, decide_eq_true hfree]
      rfl
    · have hslot : SlotFull n l i := fun _ => Nat.le_of_not_lt hfree
      have hskip : rightmostRoom n l (i + 1) = rightmostRoom n l i := by
        rw [rightmostRoom, hroom, decide_eq_false hfree]
        rfl
      rw [hskip]
      obtain ⟨first, hfirst, heq, hless, hfull⟩ | ⟨heq, hfull⟩ := ih (Nat.le_of_succ_le hk)
      · refine .inl ⟨first, hfirst, heq, hless, fun j hij hj => ?_⟩
        obtain hlt | rfl := Nat.lt_succ_iff_lt_or_eq.mp hj
        · exact hfull j hij hlt
        · exact hslot
      · refine .inr ⟨heq, fun j hj => ?_⟩
        obtain hlt | rfl := Nat.lt_succ_iff_lt_or_eq.mp hj
        · exact hfull j hlt
        · exact hslot

lemma followOn_append {a : ℕ} (front back : List ℕ) (h : a + back.length < wordLimit) :
    followOn back.length (front.length + 1) (front ++ a :: back) =
      .ok (front ++ List.range' a (back.length + 1)) := by
  induction back generalizing front a with
  | nil => rfl
  | cons b back ih =>
    rw [List.length_cons] at h ⊢
    have hread : entryAt (front ++ a :: b :: back) front.length = .ok a := by
      rw [entryAt_of_lt (by simp)]
      simp
    have hsum : addIndex a 1 = .ok (a + 1) := addIndex_of_lt (by omega)
    have hwrite : setEntry (front ++ a :: b :: back) (front.length + 1) (a + 1) =
        .ok ((front ++ [a]) ++ (a + 1) :: back) := by
      rw [setEntry_of_lt (by simp)]
      simp
    have hrest := ih (front ++ [a]) (a := a + 1) (by omega)
    rw [List.length_append, List.length_singleton] at hrest
    rw [followOn, subIndex_of_le (Nat.le_add_left 1 _), Nat.add_sub_cancel]
    simp only [bind, Except.bind, hread, hsum, hwrite, hrest]
    rw [List.append_assoc, List.range'_succ (n := back.length + 1)]
    rfl

end Loops

/-! ## The next tuple by its slots -/

section Successor

variable {n i : ℕ} {l : List ℕ}

lemma SlotFull.of_cons {a j : ℕ} (h : SlotFull n (a :: l) (j + 1)) : SlotFull n l j := by
  intro hj
  have := h (Nat.succ_lt_succ hj)
  simp only [List.getElem_cons_succ, List.length_cons] at this
  omega

lemma nextTuple?_of_full (hfull : ∀ j, SlotFull n l j) : nextTuple? n l = none := by
  induction l with
  | nil => rfl
  | cons a l ih =>
    have hhead := hfull 0 (Nat.succ_pos _)
    simp only [List.getElem_cons_zero, List.length_cons] at hhead
    rw [nextTuple?, ih fun j => (hfull (j + 1)).of_cons]
    exact if_neg (by omega)

lemma nextTuple?_of_room (hi : i < l.length) (hroom : l[i] + l.length < n + i)
    (hfull : ∀ j, i < j → SlotFull n l j) :
    nextTuple? n l = some (l.take i ++ List.range' (l[i] + 1) (l.length - i)) := by
  induction l generalizing i with
  | nil => cases hi
  | cons a l ih =>
    cases i with
    | zero =>
      simp only [List.getElem_cons_zero, List.length_cons] at hroom
      rw [nextTuple?, nextTuple?_of_full fun j => (hfull (j + 1) (Nat.succ_pos j)).of_cons]
      exact if_pos (by omega)
    | succ i =>
      simp only [List.getElem_cons_succ, List.length_cons] at hroom
      have hnext := ih (Nat.lt_of_succ_lt_succ hi) (by omega) fun j hij =>
        (hfull (j + 1) (Nat.succ_lt_succ hij)).of_cons
      rw [nextTuple?, hnext]
      simp

/-- No step by the slots of a list fails that is not longer than a word can count. -/
theorem nextByIndex_eq (hsize : l.length ≤ n) (hn : n < wordLimit) :
    nextByIndex n l = .ok (nextTuple? n l) := by
  obtain ⟨i, hi, hfind, hroom, hfull⟩ | ⟨hfind, hfull⟩ :=
    rightmostRoom_of_le (Nat.le_refl l.length) hsize hn
  · have hmove : addIndex l[i] 1 = .ok (l[i] + 1) := addIndex_of_lt (by omega)
    have hafter : addIndex i 1 = .ok (i + 1) := addIndex_of_lt (by omega)
    have hset : l.set i (l[i] + 1) = l.take i ++ (l[i] + 1) :: l.drop (i + 1) := by
      rw [List.set_eq_take_append_cons_drop, if_pos hi]
    have hfront : (l.take i).length = i := List.length_take_of_le (Nat.le_of_lt hi)
    have hback : (l.drop (i + 1)).length = l.length - (i + 1) := List.length_drop
    have hfill := followOn_append (a := l[i] + 1) (l.take i) (l.drop (i + 1)) (by omega)
    rw [hfront, hback, ← hset] at hfill
    have hcount : l.length - (i + 1) + 1 = l.length - i := by omega
    rw [nextByIndex, hfind,
      nextTuple?_of_room hi hroom fun j hij hj => hfull j hij hj hj, ← hcount]
    simp only [bind, Except.bind, entryAt_of_lt hi, hmove, setEntry_of_lt hi, hafter, hfill]
    rfl
  · rw [nextByIndex, hfind, nextTuple?_of_full fun j hj => hfull j hj hj]
    rfl

example : nextByIndex (2 ^ 64 - 1) [0, 2 ^ 64 - 3, 2 ^ 64 - 2] = .ok (some [1, 2, 3]) := by
  decide

/-- A list that is longer than the bound makes the first difference fail. -/
example : nextByIndex 1 [0, 1] = .error .underflow := by decide

end Successor

namespace TupleStream

/-- What a call computes by index is what is to come after it. -/
lemma nextByIndex_of_pending {n size k : ℕ} {l : List ℕ} (hn : n < wordLimit)
    (h : ((start n size).drop k).pending = some l) :
    nextByIndex n l = .ok ((start n size).drop (k + 1)).pending := by
  have htuple : IsTuple n size l :=
    isTuple_of_mem_take (fun _ => isTuple_of_pending_start) l (mem_take_succ_of_pending h)
  rw [nextByIndex_eq (htuple.length_eq ▸ htuple.size_le) hn, drop_succ, h]
  rfl

end TupleStream

lemma tuples_of_lt {n size : ℕ} (h : n < size) : tuples n size = [] := by
  rw [← List.length_eq_zero_iff, length_tuples, Nat.choose_eq_zero_of_lt h]

lemma tuples_zero (n : ℕ) : tuples n 0 = [[]] := by
  have hsingle : ∀ l ∈ tuples n 0, l = [] := fun l hl =>
    List.length_eq_zero_iff.mp (mem_tuples.mp hl).length_eq
  rw [List.eq_replicate_of_mem hsingle, length_tuples, Nat.choose_zero_right]
  rfl

/-- The stream produces all increasing tuples of a size below a bound, each of them once, in
lexicographic order and as many as there are subsets of the size, and then nothing more. When
the bound is a word, the slots of each next tuple are found without a fault. The candidates of
a code are the sets of these tuples, in their order. -/
theorem tuples_enumerate (n size : ℕ) :
    (∀ l, l ∈ tuples n size ↔ IsTuple n size l) ∧
    (tuples n size).Nodup ∧
    (tuples n size).Pairwise (List.Lex (· < ·)) ∧
    (tuples n size).length = n.choose size ∧
    (n < size → tuples n size = []) ∧
    tuples n 0 = [[]] ∧
    (∀ k, ((TupleStream.start n size).drop k).next?.map Prod.fst = (tuples n size)[k]?) ∧
    (n < wordLimit → ∀ k l, ((TupleStream.start n size).drop k).pending = some l →
      nextByIndex n l = .ok ((TupleStream.start n size).drop (k + 1)).pending) ∧
    ∀ p : CodeParams,
      p.candidates.map ParitySet.toList = tuples p.parities p.weight ∧
      p.candidates.Nodup ∧
      (∀ c, c ∈ p.candidates ↔ c.size = p.weight ∧ ∀ i, i ∈ c → i < p.parities) ∧
      p.candidates.length = p.candidateCount := by
  refine ⟨fun l => mem_tuples, tuples_nodup n size, TupleStream.pairwise_lex_take _ _,
    length_tuples n size, tuples_of_lt, tuples_zero n, next?_drop_start n size, ?_, ?_⟩
  · intro hn k l hl
    exact TupleStream.nextByIndex_of_pending hn hl
  · intro p
    exact ⟨p.map_toList_candidates, p.candidates_nodup, fun c => CodeParams.mem_candidates,
      p.length_candidates⟩

/-- With the largest word as the bound the triple after `(0, 1, 2)` is found without a fault;
below two there are no triples. -/
theorem tuples_enumerate_at_limit :
    2 ^ 64 - 1 < wordLimit ∧
      ((TupleStream.start (2 ^ 64 - 1) 3).drop 0).pending = some [0, 1, 2] ∧
      nextByIndex (2 ^ 64 - 1) [0, 1, 2] = .ok (some [0, 1, 3]) ∧
      2 < 3 ∧ tuples 2 3 = [] := by
  have hlimit : 2 ^ 64 - 1 < wordLimit := by decide
  have hfirst : ((TupleStream.start (2 ^ 64 - 1) 3).drop 0).pending = some [0, 1, 2] := by
    decide
  have hnone : 2 < 3 := by decide
  obtain ⟨-, -, -, -, -, -, -, hwords, -⟩ := tuples_enumerate (2 ^ 64 - 1) 3
  obtain ⟨-, -, -, -, hempty, -⟩ := tuples_enumerate 2 3
  exact ⟨hlimit, hfirst, hwords hlimit 0 [0, 1, 2] hfirst, hnone, hempty hnone⟩

end FlatXor
