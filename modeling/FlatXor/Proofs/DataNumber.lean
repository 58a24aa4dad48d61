import FlatXor.DataSet
import FlatXor.ParitySet
import Mathlib.Algebra.Ring.Nat
import Mathlib.Data.List.Basic

/-!
# Data sets as numbers

The words of a data set are the digits of one number in base `2 ^ 64`, and its binary
digits are the set: digit `i` is one exactly when `i` is a member. So a set with room for
`n` elements is a number below `2 ^ n`, and its size is the number of ones.
-/
namespace FlatXor

/-- A property that only numbers below `m` have is counted as well below any `n ≥ m`. -/
lemma countP_range_of_le {m n : ℕ} (hmn : m ≤ n) {q : ℕ → Bool} (hq : ∀ i, q i = true → i < m) :
    (List.range n).countP q = (List.range m).countP q := by
  obtain ⟨k, rfl⟩ := Nat.exists_eq_add_of_le hmn
  have hnone : ((List.range k).map (m + ·)).countP q = 0 := by
    rw [List.countP_eq_zero]
    intro i hi hqi
    obtain ⟨j, -, rfl⟩ := List.mem_map.mp hi
    have := hq _ hqi
    omega
  rw [List.range_add, List.countP_append, hnone, Nat.add_zero]

namespace ParitySet

@[simp] theorem contains_iff {s : ParitySet} {i : ℕ} : s.contains i = true ↔ i ∈ s :=
  decide_eq_true_iff

/-- The size of a parity set is counted below any bound of its members. -/
theorem countP_contains {s : ParitySet} {m : ℕ} (hm : m ≤ maxParities)
    (hs : ∀ i, i ∈ s → i < m) : (List.range m).countP s.contains = s.size := by
  have hlt : ∀ i, s.contains i = true → i < m := fun i hi => hs i (contains_iff.mp hi)
  rw [← countP_range_of_le hm hlt, ← length_toList, toList, Mask.positions,
    ← List.countP_eq_length_filter]
  exact List.countP_congr fun i _ => contains_iff.trans mem_def

end ParitySet

namespace DataSet

@[simp] theorem contains_iff {s : DataSet} {i : ℕ} : s.contains i = true ↔ i ∈ s :=
  decide_eq_true_iff

/-- Sets with room for as many elements and with the same members are equal. -/
theorem ext_mem {s t : DataSet} (hcapacity : s.capacity = t.capacity) (h : ∀ i, i ∈ s ↔ i ∈ t) :
    s = t := by
  have hwords : s.words = t.words := by
    apply Array.ext
    · rw [s.size_words, t.size_words, hcapacity]
    · intro k hs ht
      refine Mask.ext_has fun j => ?_
      by_cases hj : j < 64
      · have hbit : hasBit s.words (64 * k + j) = hasBit t.words (64 * k + j) :=
          Bool.eq_iff_iff.mpr (h (64 * k + j))
        have hword : (64 * k + j) / 64 = k := by omega
        have hdigit : (64 * k + j) % 64 = j := by omega
        simpa [hasBit, hword, hdigit, hs, ht] using hbit
      · rw [Mask.has_eq_false_of_le (Nat.le_of_not_lt hj),
          Mask.has_eq_false_of_le (Nat.le_of_not_lt hj)]
  cases s
  cases t
  simp only at hcapacity hwords
  subst hcapacity hwords
  rfl

/-- A digit of the number is a bit of the word that it falls into. -/
theorem testBit_valueOf (l : List UInt64) (i : ℕ) :
    (valueOf l).testBit i = Mask.has (l.getD (i / 64) 0) (i % 64) := by
  induction l generalizing i with
  | nil => simp [valueOf]
  | cons w l ih =>
    have hvalue : valueOf (w :: l) = 2 ^ 64 * valueOf l + w.toNat := Nat.add_comm _ _
    rw [hvalue, Nat.testBit_two_pow_mul_add _ w.toNat_lt]
    by_cases hi : i < 64
    · rw [if_pos hi, Nat.div_eq_of_lt hi, Nat.mod_eq_of_lt hi]
      rfl
    · obtain ⟨j, rfl⟩ := Nat.exists_eq_add_of_le (Nat.le_of_not_lt hi)
      rw [if_neg hi, Nat.add_sub_cancel_left, ih, Nat.add_mod_left,
        show (64 + j) / 64 = j / 64 + 1 by omega, List.getD_cons_succ]

/-- The binary digits of the number are the set. -/
theorem testBit_toNat {s : DataSet} {i : ℕ} : s.toNat.testBit i = true ↔ i ∈ s := by
  rw [toNat, testBit_valueOf, mem_def, hasBit]
  simp [List.getD_eq_getElem?_getD, Array.getD_eq_getD_getElem?]

/-- A set with room for `n` elements is a number below `2 ^ n`. -/
theorem toNat_lt (s : DataSet) : s.toNat < 2 ^ s.capacity := by
  refine Nat.lt_pow_two_of_testBit _ fun i hi => ?_
  rw [← Bool.not_eq_true, testBit_toNat]
  intro h
  have := lt_of_mem h
  omega

/-- The ones of the words are the ones of the number. -/
theorem sum_count_eq_countP (l : List UInt64) :
    (l.map Mask.count).foldr (· + ·) 0 = (List.range (64 * l.length)).countP (valueOf l).testBit := by
  induction l with
  | nil => rfl
  | cons w l ih =>
    have hlow : (List.range 64).countP (valueOf (w :: l)).testBit = Mask.count w := by
      rw [Mask.count_eq_length, Mask.positions, ← List.countP_eq_length_filter]
      apply List.countP_congr
      intro i hi
      have hi : i < 64 := List.mem_range.mp hi
      rw [testBit_valueOf, Nat.div_eq_of_lt hi, Nat.mod_eq_of_lt hi]
      rfl
    have hhigh : ((List.range (64 * l.length)).map (64 + ·)).countP (valueOf (w :: l)).testBit =
        (List.range (64 * l.length)).countP (valueOf l).testBit := by
      rw [List.countP_map]
      apply List.countP_congr
      intro i _
      rw [Function.comp_apply, testBit_valueOf, testBit_valueOf, Nat.add_mod_left,
        show (64 + i) / 64 = i / 64 + 1 by omega, List.getD_cons_succ]
    rw [List.length_cons, show 64 * (l.length + 1) = 64 + 64 * l.length by omega, List.range_add,
      List.countP_append, hlow, hhigh, ← ih]
    rfl

/-- The size is the number of members. -/
theorem size_eq_countP (s : DataSet) : s.size = (List.range s.capacity).countP s.contains := by
  have hwords : s.capacity ≤ 64 * s.words.toList.length := by
    rw [Array.length_toList, s.size_words]
    omega
  have hlt : ∀ i, s.contains i = true → i < s.capacity := fun i hi => lt_of_mem (contains_iff.mp hi)
  rw [size, sum_count_eq_countP, ← countP_range_of_le hwords hlt]
  exact List.countP_congr fun i _ => testBit_toNat.trans contains_iff.symm

end DataSet

end FlatXor
