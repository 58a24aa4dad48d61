import FlatXor.CodeParams
import Mathlib.Data.List.Sort

/-!
# The lexicographic pool

The pool of all candidates is produced tuple by tuple. Every tuple is strictly
increasing, below the number of parities and of the code's weight, and each is
lexicographically after the one before it. So a search may start from this pool:
each candidate is one that the code admits, and no candidate occurs twice.
-/
namespace FlatXor

/-- A strictly increasing tuple of the given size over the numbers below `n`. -/
structure IsTuple (n size : ℕ) (l : List ℕ) : Prop where
  increasing : l.Pairwise (· < ·)
  lt_bound : ∀ i ∈ l, i < n
  length_eq : l.length = size

lemma nextTuple?_cons {n a : ℕ} {l next : List ℕ} (h : nextTuple? n (a :: l) = some next) :
    (∃ tail, nextTuple? n l = some tail ∧ next = a :: tail) ∨
      (a + 1 + l.length < n ∧ next = List.range' (a + 1) (l.length + 1)) := by
  rw [nextTuple?] at h
  cases htail : nextTuple? n l with
  | some tail =>
    rw [htail] at h
    exact .inl ⟨tail, rfl, (Option.some.inj h).symm⟩
  | none =>
    rw [htail] at h
    by_cases hroom : a + 1 + l.length < n
    · rw [if_pos hroom] at h
      exact .inr ⟨hroom, (Option.some.inj h).symm⟩
    · rw [if_neg hroom] at h
      cases h

/-- A tuple that stays above a number stays above it. -/
theorem lt_of_mem_nextTuple? {n a : ℕ} {l next : List ℕ} (h : nextTuple? n l = some next)
    (ha : ∀ i ∈ l, a < i) : ∀ i ∈ next, a < i := by
  induction l generalizing next with
  | nil => cases h
  | cons b l ih =>
    intro i hi
    have hab : a < b := ha b List.mem_cons_self
    obtain ⟨tail, htail, rfl⟩ | ⟨-, rfl⟩ := nextTuple?_cons h
    · obtain rfl | hi := List.mem_cons.mp hi
      · exact hab
      · exact ih htail (fun j hj => ha j (List.mem_cons_of_mem b hj)) i hi
    · have := (List.mem_range'_1.mp hi).1
      omega

theorem IsTuple.next {n size : ℕ} {l next : List ℕ} (hl : IsTuple n size l)
    (h : nextTuple? n l = some next) : IsTuple n size next := by
  induction l generalizing size next with
  | nil => cases h
  | cons a l ih =>
    obtain ⟨hincr, hlt, hlen⟩ := hl
    obtain ⟨hal, hl⟩ := List.pairwise_cons.mp hincr
    obtain ⟨tail, htail, rfl⟩ | ⟨hroom, rfl⟩ := nextTuple?_cons h
    · have htuple := ih ⟨hl, fun i hi => hlt i (List.mem_cons_of_mem a hi), rfl⟩ htail
      have hmem := lt_of_mem_nextTuple? htail hal
      refine ⟨List.pairwise_cons.mpr ⟨hmem, htuple.increasing⟩, ?_, ?_⟩
      · intro i hi
        obtain rfl | hi := List.mem_cons.mp hi
        · exact hlt i List.mem_cons_self
        · exact htuple.lt_bound i hi
      · simpa [htuple.length_eq] using hlen
    · refine ⟨List.pairwise_lt_range', ?_, by simpa using hlen⟩
      intro i hi
      have := (List.mem_range'_1.mp hi).2
      omega

theorem lex_nextTuple? {n : ℕ} {l next : List ℕ} (h : nextTuple? n l = some next) :
    List.Lex (· < ·) l next := by
  induction l generalizing next with
  | nil => cases h
  | cons a l ih =>
    obtain ⟨tail, htail, rfl⟩ | ⟨-, rfl⟩ := nextTuple?_cons h
    · exact .cons (ih htail)
    · rw [List.range'_succ]
      exact .rel (Nat.lt_succ_self a)

namespace TupleStream

lemma take_succ_of_pending {s : TupleStream} {l : List ℕ} (h : s.pending = some l) (k : ℕ) :
    s.take (k + 1) = l :: (TupleStream.mk s.bound (nextTuple? s.bound l)).take k := by
  rw [take_succ, next?, h]
  rfl

lemma take_of_pending_eq_none {s : TupleStream} (h : s.pending = none) (k : ℕ) :
    s.take k = [] := by
  cases k with
  | zero => rfl
  | succ k => rw [take_succ, next?, h]; rfl

theorem isTuple_of_mem_take {size k : ℕ} {s : TupleStream}
    (hs : ∀ l, s.pending = some l → IsTuple s.bound size l) :
    ∀ l ∈ s.take k, IsTuple s.bound size l := by
  induction k generalizing s with
  | zero => simp
  | succ k ih =>
    cases hl : s.pending with
    | none => simp [take_of_pending_eq_none hl]
    | some l =>
      rw [take_succ_of_pending hl]
      intro l' hl'
      obtain rfl | hl' := List.mem_cons.mp hl'
      · exact hs _ hl
      · exact ih (s := ⟨s.bound, nextTuple? s.bound l⟩) (fun _ hnext => (hs l hl).next hnext) l' hl'

lemma lex_of_mem_take {k : ℕ} {s : TupleStream} {l₀ : List ℕ}
    (hs : ∀ l, s.pending = some l → List.Lex (· < ·) l₀ l) :
    ∀ l ∈ s.take k, List.Lex (· < ·) l₀ l := by
  induction k generalizing s with
  | zero => simp
  | succ k ih =>
    cases hl : s.pending with
    | none => simp [take_of_pending_eq_none hl]
    | some l =>
      rw [take_succ_of_pending hl]
      intro l' hl'
      obtain rfl | hl' := List.mem_cons.mp hl'
      · exact hs _ hl
      · exact ih (s := ⟨s.bound, nextTuple? s.bound l⟩)
          (fun _ hnext => List.lex_trans Nat.lt_trans (hs l hl) (lex_nextTuple? hnext)) l' hl'

/-- The tuples come in lexicographic order. -/
theorem pairwise_lex_take (k : ℕ) (s : TupleStream) : (s.take k).Pairwise (List.Lex (· < ·)) := by
  induction k generalizing s with
  | zero => simp
  | succ k ih =>
    cases hl : s.pending with
    | none => simp [take_of_pending_eq_none hl]
    | some l =>
      rw [take_succ_of_pending hl]
      exact List.pairwise_cons.mpr ⟨lex_of_mem_take fun _ hnext => lex_nextTuple? hnext, ih _⟩

theorem nodup_take (k : ℕ) (s : TupleStream) : (s.take k).Nodup := by
  refine (pairwise_lex_take k s).imp ?_
  rintro l _ hlex rfl
  exact List.lex_irrefl Nat.lt_irrefl l hlex

lemma isTuple_of_pending_start {n size : ℕ} {l : List ℕ} (h : (start n size).pending = some l) :
    IsTuple n size l := by
  by_cases hsize : size ≤ n
  · simp only [start, if_pos hsize, Option.some.injEq] at h
    subst h
    refine ⟨List.pairwise_lt_range, fun i hi => ?_, List.length_range⟩
    have := List.mem_range.mp hi
    omega
  · simp [start, if_neg hsize] at h

end TupleStream

theorem isTuple_of_mem_tuples {n size : ℕ} {l : List ℕ} (h : l ∈ tuples n size) :
    IsTuple n size l :=
  TupleStream.isTuple_of_mem_take (fun _ => TupleStream.isTuple_of_pending_start) l h

theorem tuples_nodup (n size : ℕ) : (tuples n size).Nodup := TupleStream.nodup_take _ _

namespace CodeParams

/-- Written in ascending order, the members of a candidate are the tuple again. -/
theorem toList_candidateOf {n size : ℕ} {l : List ℕ} (hl : IsTuple n size l)
    (hn : n ≤ maxParities) : (candidateOf l).toList = l := by
  refine List.Subset.antisymm_of_pairwise (ParitySet.pairwise_toList _) hl.increasing ?_ ?_
  · intro i hi
    simp only [ParitySet.mem_toList, candidateOf, ParitySet.mem_ofList, List.mem_filterMap] at hi
    obtain ⟨j, ⟨k, hk, hj⟩, rfl⟩ := hi
    unfold ParityIndex.ofNat? at hj
    split at hj
    · cases hj
      exact hk
    · cases hj
  · intro i hi
    have hlt : i < maxParities := Nat.lt_of_lt_of_le (hl.lt_bound i hi) hn
    simp only [ParitySet.mem_toList, candidateOf, ParitySet.mem_ofList, List.mem_filterMap]
    exact ⟨⟨i, hlt⟩, ⟨i, hi, by simp [ParityIndex.ofNat?, hlt]⟩, rfl⟩

/-- Every candidate of the lexicographic pool is one that the code admits. -/
theorem admits_of_mem_candidates {p : CodeParams} {c : ParitySet} (h : c ∈ p.candidates) :
    p.admits c = true := by
  obtain ⟨l, hl, rfl⟩ := List.mem_map.mp h
  have htuple := isTuple_of_mem_tuples hl
  have hlist := toList_candidateOf htuple p.parities_le
  rw [admits_iff]
  constructor
  · rw [← ParitySet.length_toList, hlist, htuple.length_eq]
  · intro i hi
    rw [← ParitySet.mem_toList, hlist] at hi
    exact htuple.lt_bound i hi

theorem candidates_nodup (p : CodeParams) : p.candidates.Nodup := by
  refine List.Nodup.map_on ?_ (tuples_nodup _ _)
  intro l hl l' hl' heq
  rw [← toList_candidateOf (isTuple_of_mem_tuples hl) p.parities_le, heq,
    toList_candidateOf (isTuple_of_mem_tuples hl') p.parities_le]

end CodeParams

end FlatXor
