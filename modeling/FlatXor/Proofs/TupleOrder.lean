import FlatXor.Proofs.Binomials
import FlatXor.Proofs.Candidates
import Mathlib.Data.Finset.Powerset
import Mathlib.Data.Finset.Sort

/-!
# All increasing tuples

The next tuple is the immediate successor in lexicographic order: a greater tuple is the next one
or still greater. So no tuple is passed over, and there is no next tuple only after the last.
As sets of members the tuples are the subsets of their size, each of which has one increasing
order, and so the stream ends when it has produced as many tuples as there are subsets.
-/
namespace FlatXor

variable {n size a : ℕ} {l l' : List ℕ}

/-! ## The immediate successor -/

/-- Consecutive numbers make the least of the increasing lists from `a` on. -/
lemma range'_eq_or_lex (hincr : l.Pairwise (· < ·)) (ha : ∀ i ∈ l, a ≤ i) :
    List.range' a l.length = l ∨ List.Lex (· < ·) (List.range' a l.length) l := by
  induction l generalizing a with
  | nil => exact .inl rfl
  | cons b l ih =>
    obtain ⟨hb, htail⟩ := List.pairwise_cons.mp hincr
    rw [List.length_cons, List.range'_succ]
    obtain rfl | hlt := Nat.eq_or_lt_of_le (ha b List.mem_cons_self)
    · obtain heq | hlex := ih htail hb
      · exact .inl (congrArg (a :: ·) heq)
      · exact .inr (.cons hlex)
    · exact .inr (.rel hlt)

/-- The head of a tuple leaves room for the others below the bound. -/
lemma IsTuple.head_add_length_lt (h : IsTuple n size (a :: l)) : a + l.length < n := by
  induction l generalizing a size with
  | nil => exact h.lt_bound a List.mem_cons_self
  | cons b l ih =>
    obtain ⟨hincr, hlt, -⟩ := h
    obtain ⟨hab, hincr⟩ := List.pairwise_cons.mp hincr
    have hroom := ih ⟨hincr, fun i hi => hlt i (List.mem_cons_of_mem a hi), rfl⟩
    have := hab b List.mem_cons_self
    rw [List.length_cons]
    omega

lemma IsTuple.size_le (h : IsTuple n size l) : size ≤ n := by
  rw [← h.length_eq]
  cases l with
  | nil => exact Nat.zero_le n
  | cons a l =>
    have := h.head_add_length_lt
    rw [List.length_cons]
    omega

lemma IsTuple.tail (h : IsTuple n size (a :: l)) : IsTuple n (size - 1) l where
  increasing := h.increasing.of_cons
  lt_bound := fun i hi => h.lt_bound i (List.mem_cons_of_mem a hi)
  length_eq := by
    have := h.length_eq
    rw [List.length_cons] at this
    omega

/-- Between a tuple and the next there is no other. -/
theorem IsTuple.next_eq_or_lex (hl : IsTuple n size l) (hl' : IsTuple n size l')
    (h : List.Lex (· < ·) l l') :
    ∃ next, nextTuple? n l = some next ∧ (next = l' ∨ List.Lex (· < ·) next l') := by
  induction h generalizing size with
  | nil =>
    have hempty := hl.length_eq
    rw [← hl'.length_eq] at hempty
    cases hempty
  | @cons a l l' h ih =>
    obtain ⟨next, hnext, hle⟩ := ih hl.tail hl'.tail
    refine ⟨a :: next, by rw [nextTuple?, hnext], ?_⟩
    exact hle.imp (congrArg (a :: ·)) .cons
  | @rel a l b l' h =>
    cases htail : nextTuple? n l with
    | some tail => exact ⟨a :: tail, by rw [nextTuple?, htail], .inr (.rel h)⟩
    | none =>
      have hroom := hl'.head_add_length_lt
      have hlen : l'.length = l.length :=
        Nat.succ.inj (hl'.length_eq.trans hl.length_eq.symm)
      have hlt : a + 1 + l.length < n := by omega
      refine ⟨List.range' (a + 1) (l.length + 1), by rw [nextTuple?, htail]; exact if_pos hlt, ?_⟩
      have hleast : ∀ i ∈ b :: l', a + 1 ≤ i := by
        intro i hi
        obtain rfl | hi := List.mem_cons.mp hi
        · exact h
        · have := (List.pairwise_cons.mp hl'.increasing).1 i hi
          omega
      have hfirst := range'_eq_or_lex hl'.increasing hleast
      rwa [List.length_cons, hlen] at hfirst

/-! ## Tuples as sets -/

lemma IsTuple.toFinset_mem (h : IsTuple n size l) :
    l.toFinset ∈ (Finset.range n).powersetCard size := by
  rw [Finset.mem_powersetCard]
  constructor
  · intro i hi
    exact Finset.mem_range.mpr (h.lt_bound i (List.mem_toFinset.mp hi))
  · rw [List.toFinset_card_of_nodup (h.increasing.imp Nat.ne_of_lt), h.length_eq]

lemma IsTuple.eq_of_toFinset_eq (h : IsTuple n size l) (h' : IsTuple n size l')
    (heq : l.toFinset = l'.toFinset) : l = l' := by
  refine List.Subset.antisymm_of_pairwise h.increasing h'.increasing ?_ ?_
  · intro i hi
    rwa [← List.mem_toFinset, ← heq, List.mem_toFinset]
  · intro i hi
    rwa [← List.mem_toFinset, heq, List.mem_toFinset]

lemma exists_tuple {s : Finset ℕ} (hs : s ∈ (Finset.range n).powersetCard size) :
    ∃ l, IsTuple n size l ∧ l.toFinset = s := by
  obtain ⟨hsub, hcard⟩ := Finset.mem_powersetCard.mp hs
  refine ⟨s.sort, ⟨(Finset.sortedLT_sort s).pairwise, fun i hi => ?_, ?_⟩, s.sort_toFinset _⟩
  · exact Finset.mem_range.mp (hsub ((Finset.mem_sort _).mp hi))
  · rw [Finset.length_sort, hcard]

/-- A list of different tuples is as long as the family of their sets is large. -/
lemma card_toFinset_tuples {L : List (List ℕ)} (hnodup : L.Nodup) (h : ∀ l ∈ L, IsTuple n size l) :
    (L.map List.toFinset).toFinset ⊆ (Finset.range n).powersetCard size ∧
      (L.map List.toFinset).toFinset.card = L.length := by
  constructor
  · intro s hs
    obtain ⟨l, hl, rfl⟩ := List.mem_map.mp (List.mem_toFinset.mp hs)
    exact (h l hl).toFinset_mem
  · rw [List.toFinset_card_of_nodup, List.length_map]
    exact hnodup.map_on fun l hl l' hl' heq => (h l hl).eq_of_toFinset_eq (h l' hl') heq

/-- There are no more different tuples than subsets of their size. -/
lemma length_le_choose {L : List (List ℕ)} (hnodup : L.Nodup) (h : ∀ l ∈ L, IsTuple n size l) :
    L.length ≤ n.choose size := by
  obtain ⟨hsub, hcard⟩ := card_toFinset_tuples hnodup h
  have hle := Finset.card_le_card hsub
  rwa [hcard, Finset.card_powersetCard, Finset.card_range] at hle

/-- A list of all tuples, each of them once, is as long as there are subsets of their size. -/
lemma length_eq_choose {L : List (List ℕ)} (hnodup : L.Nodup) (h : ∀ l, l ∈ L ↔ IsTuple n size l) :
    L.length = n.choose size := by
  obtain ⟨hsub, hcard⟩ := card_toFinset_tuples hnodup fun l hl => (h l).mp hl
  have hall : (Finset.range n).powersetCard size ⊆ (L.map List.toFinset).toFinset := by
    intro s hs
    obtain ⟨l, hl, rfl⟩ := exists_tuple hs
    exact List.mem_toFinset.mpr (List.mem_map_of_mem ((h l).mpr hl))
  rw [← hcard, hsub.antisymm hall, Finset.card_powersetCard, Finset.card_range]

/-! ## The stream -/

namespace TupleStream

variable {s : TupleStream} {k : ℕ}

lemma drop_of_pending_eq_none (h : s.pending = none) (k : ℕ) : s.drop k = s := by
  cases k with
  | zero => rfl
  | succ k => simp [drop, next?, h]

lemma drop_succ_of_pending (h : s.pending = some l) (k : ℕ) :
    s.drop (k + 1) = (TupleStream.mk s.bound (nextTuple? s.bound l)).drop k := by
  simp [drop, next?, h]

/-- What is to come after one tuple more is the next tuple. -/
lemma drop_succ (s : TupleStream) (k : ℕ) :
    (s.drop (k + 1)).pending = (s.drop k).pending.bind (nextTuple? s.bound) := by
  induction k generalizing s with
  | zero =>
    cases h : s.pending with
    | none => simp [drop_of_pending_eq_none h, h]
    | some l =>
      rw [drop_succ_of_pending h, drop, drop, h]
      rfl
  | succ k ih =>
    cases h : s.pending with
    | none => simp [drop_of_pending_eq_none h, h]
    | some l => rw [drop_succ_of_pending h, drop_succ_of_pending h, ih]

/-- The tuple of a call is what was to come before it. -/
lemma take_succ_eq_append (s : TupleStream) (k : ℕ) :
    s.take (k + 1) = s.take k ++ (s.drop k).pending.toList := by
  induction k generalizing s with
  | zero =>
    cases h : s.pending with
    | none => simp [take_of_pending_eq_none h, drop, h]
    | some l => simp [take_succ_of_pending h, drop, h]
  | succ k ih =>
    cases h : s.pending with
    | none => simp [take_of_pending_eq_none h, drop_of_pending_eq_none h, h]
    | some l =>
      rw [take_succ_of_pending h, take_succ_of_pending h, drop_succ_of_pending h, ih,
        List.cons_append]

lemma mem_take_succ_of_pending (h : (s.drop k).pending = some l) : l ∈ s.take (k + 1) := by
  rw [take_succ_eq_append, h]
  simp

/-- Among the tuples of enough calls, those of a call stand at its number. -/
lemma getElem?_take {m : ℕ} (hk : k < m) : (s.take m)[k]? = (s.drop k).pending := by
  induction k generalizing s m with
  | zero =>
    obtain ⟨m, rfl⟩ := Nat.exists_eq_add_one_of_ne_zero (Nat.ne_of_gt hk)
    cases h : s.pending with
    | none => simp [take_of_pending_eq_none h, drop, h]
    | some l => simp [take_succ_of_pending h, drop, h]
  | succ k ih =>
    obtain ⟨m, rfl⟩ := Nat.exists_eq_add_one_of_ne_zero (Nat.ne_zero_of_lt hk)
    cases h : s.pending with
    | none => simp [take_of_pending_eq_none h, drop_of_pending_eq_none h, h]
    | some l =>
      rw [take_succ_of_pending h, drop_succ_of_pending h, List.getElem?_cons_succ]
      exact ih (Nat.lt_of_succ_lt_succ hk)

lemma pending_drop_eq_none_of_le {m : ℕ} (hk : k ≤ m) (h : (s.drop k).pending = none) :
    (s.drop m).pending = none := by
  induction hk with
  | refl => exact h
  | step _ ih => rw [drop_succ, ih, Option.bind_none]

/-- No tuple is passed over: as long as one has not come, the stream is at or before it. -/
theorem mem_take_or_pending (hs : ∀ l, s.pending = some l → IsTuple s.bound size l)
    (hl' : IsTuple s.bound size l')
    (hfirst : ∃ l, s.pending = some l ∧ (l = l' ∨ List.Lex (· < ·) l l')) (k : ℕ) :
    l' ∈ s.take k ∨ ∃ l, (s.drop k).pending = some l ∧ (l = l' ∨ List.Lex (· < ·) l l') := by
  induction k with
  | zero => exact .inr hfirst
  | succ k ih =>
    rw [drop_succ]
    obtain htaken | ⟨l, hl, rfl | hlex⟩ := ih
    · rw [take_succ_eq_append]
      exact .inl (List.mem_append_left _ htaken)
    · exact .inl (mem_take_succ_of_pending hl)
    · have htuple := isTuple_of_mem_take hs l (mem_take_succ_of_pending hl)
      rw [hl, Option.bind_some]
      exact .inr (htuple.next_eq_or_lex hl' hlex)

/-- The stream has ended after as many calls as there are subsets of the size. -/
lemma pending_drop_choose (n size : ℕ) : ((start n size).drop (n.choose size)).pending = none := by
  rw [Option.eq_none_iff_forall_ne_some]
  intro l hl
  have htake := (getElem?_take (Nat.lt_succ_self _)).trans hl
  have hlong := (List.getElem?_eq_some_iff.mp htake).1
  have hshort : ((start n size).take (n.choose size + 1)).length ≤ n.choose size :=
    length_le_choose (nodup_take _ _) (isTuple_of_mem_take fun _ => isTuple_of_pending_start)
  exact Nat.lt_irrefl _ (Nat.lt_of_lt_of_le hlong hshort)

end TupleStream

/-- The tuples are the increasing ones of their size below the bound, all of them. -/
theorem mem_tuples : l ∈ tuples n size ↔ IsTuple n size l := by
  refine ⟨isTuple_of_mem_tuples, fun h => ?_⟩
  have hfirst : ∃ first, (TupleStream.start n size).pending = some first ∧
      (first = l ∨ List.Lex (· < ·) first l) := by
    have hleast := range'_eq_or_lex h.increasing fun i _ => Nat.zero_le i
    rw [h.length_eq, ← List.range_eq_range'] at hleast
    exact ⟨List.range size, by simp [TupleStream.start, h.size_le], hleast⟩
  have htuple : IsTuple (TupleStream.start n size).bound size l := h
  rw [tuples, Binomial.choose_eq_choose]
  obtain htaken | ⟨later, hlater, -⟩ := TupleStream.mem_take_or_pending
    (fun _ => TupleStream.isTuple_of_pending_start) htuple hfirst (n.choose size)
  · exact htaken
  · rw [TupleStream.pending_drop_choose] at hlater
    cases hlater

theorem length_tuples (n size : ℕ) : (tuples n size).length = n.choose size :=
  length_eq_choose (tuples_nodup n size) fun _ => mem_tuples

/-- A call answers with the tuple of its number, and with none after the last. -/
theorem next?_drop_start (n size k : ℕ) :
    ((TupleStream.start n size).drop k).next?.map Prod.fst = (tuples n size)[k]? := by
  have hpending : ∀ s : TupleStream, s.next?.map Prod.fst = s.pending := by
    intro s
    cases h : s.pending <;> simp [TupleStream.next?, h]
  rw [hpending]
  by_cases hk : k < n.choose size
  · rw [tuples, Binomial.choose_eq_choose, TupleStream.getElem?_take hk]
  · have hle := Nat.le_of_not_lt hk
    rw [List.getElem?_eq_none (by rwa [length_tuples]),
      TupleStream.pending_drop_eq_none_of_le hle (TupleStream.pending_drop_choose n size)]

namespace CodeParams

variable {p : CodeParams}

/-- Written in ascending order, the members of the candidates are the tuples. -/
theorem map_toList_candidates (p : CodeParams) :
    p.candidates.map ParitySet.toList = tuples p.parities p.weight := by
  rw [candidates, List.map_map]
  refine (List.map_congr_left fun l hl => ?_).trans (List.map_id _)
  exact toList_candidateOf (isTuple_of_mem_tuples hl) p.parities_le

/-- The candidates are all sets that the code admits. -/
theorem mem_candidates {c : ParitySet} :
    c ∈ p.candidates ↔ c.size = p.weight ∧ ∀ i, i ∈ c → i < p.parities := by
  refine ⟨fun h => admits_iff.mp (admits_of_mem_candidates h), fun ⟨hsize, hmembers⟩ => ?_⟩
  have htuple : IsTuple p.parities p.weight c.toList := by
    refine ⟨c.pairwise_toList, fun i hi => hmembers i (ParitySet.mem_toList.mp hi), ?_⟩
    rw [ParitySet.length_toList, hsize]
  rw [candidates, List.mem_map]
  refine ⟨c.toList, mem_tuples.mpr htuple, ParitySet.ext_mem fun i => ?_⟩
  rw [← ParitySet.mem_toList, toList_candidateOf htuple p.parities_le, ParitySet.mem_toList]

theorem length_candidates (p : CodeParams) : p.candidates.length = p.candidateCount := by
  rw [candidates, List.length_map, length_tuples, candidateCount, Binomial.choose_eq_choose]

end CodeParams

end FlatXor
