import FlatXor.Mask
import Mathlib.Algebra.Group.Nat.Defs
import Mathlib.Data.List.Sort

/-!
# Scanning a word from its lowest one

A scan finds the lowest one of a word, clears it, and goes on with what is left until there is
no one any more. It comes upon the positions of the word in ascending order, and ends when it
has had as many of them as there are ones.
-/
namespace FlatXor.Mask

/-- What is left after `k` calls. -/
def rest : ℕ → UInt64 → UInt64
  | 0, w => w
  | k + 1, w =>
    match next? w with
    | some (_, w) => rest k w
    | none => w

variable {w : UInt64} {i : ℕ}

/-- A bit is looked up by shifting it to the lowest place. -/
theorem has_eq_shift (w : UInt64) (hi : i < 64) :
    has w i = ((w >>> UInt64.ofNat i) &&& 1 != 0) := by
  have hplace : i % 2 ^ 64 % 64 = i := by
    rw [Nat.mod_eq_of_lt (Nat.lt_trans hi (by decide)), Nat.mod_eq_of_lt hi]
  have hvalue : ((w >>> UInt64.ofNat i) &&& 1).toNat = w.toNat / 2 ^ i % 2 := by
    rw [UInt64.toNat_and, UInt64.toNat_shiftRight, UInt64.toNat_ofNat', hplace,
      Nat.shiftRight_eq_div_pow]
    exact Nat.and_one_is_mod _
  rw [has, Nat.testBit_eq_decide_div_mod_eq, Bool.eq_iff_iff, decide_eq_true_eq, bne_iff_ne, ne_eq,
    ← UInt64.toNat_inj, hvalue]
  exact ⟨fun h => by rw [h]; decide, fun h => (Nat.mod_two_eq_zero_or_one _).resolve_left h⟩

lemma has_lowest (hw : w ≠ 0) : has w (lowest w) = true := by
  refine BitVec.getLsbD_true_ctz_of_ne_zero (x := w.toBitVec) fun h => hw ?_
  exact UInt64.toBitVec_inj.mp h

lemma has_of_lt_lowest (hi : i < lowest w) : has w i = false :=
  BitVec.getLsbD_false_of_lt_ctz (x := w.toBitVec) hi

/-- Above its lowest one a word is an even multiple of that power of two. -/
lemma exists_toNat_eq (hw : w ≠ 0) :
    ∃ q, w.toNat = 2 ^ (lowest w + 1) * q + 2 ^ lowest w := by
  refine ⟨w.toNat / 2 ^ (lowest w + 1), ?_⟩
  have hlow : w.toNat % 2 ^ (lowest w + 1) = 2 ^ lowest w := by
    apply Nat.eq_of_testBit_eq
    intro i
    rw [Nat.testBit_mod_two_pow, Nat.testBit_two_pow]
    obtain hlt | rfl | hgt := Nat.lt_trichotomy i (lowest w)
    · have hzero : w.toNat.testBit i = false := has_of_lt_lowest hlt
      simp [hzero, Nat.ne_of_gt hlt]
    · have hone : w.toNat.testBit (lowest w) = true := has_lowest hw
      simp [hone]
    · have hout : ¬ i < lowest w + 1 := by omega
      simp [hout, Nat.ne_of_lt hgt]
  rw [← hlow, Nat.div_add_mod]

/-- Clearing takes the lowest position out, and no other. -/
theorem has_clearLowest (hw : w ≠ 0) (i : ℕ) :
    has (clearLowest w) i = (has w i && decide (i ≠ lowest w)) := by
  obtain ⟨q, hq⟩ := exists_toNat_eq hw
  have hpow : 2 ^ lowest w < 2 ^ (lowest w + 1) := Nat.pow_lt_pow_right (by decide) (by omega)
  have hpos : 1 ≤ 2 ^ lowest w := Nat.one_le_two_pow
  have hpred : (w - 1).toNat = 2 ^ (lowest w + 1) * q + (2 ^ lowest w - 1) := by
    rw [toNat_sub_one hw, hq]
    exact Nat.add_sub_assoc hpos _
  rw [clearLowest, has_and]
  have hleft : has w i = (2 ^ (lowest w + 1) * q + 2 ^ lowest w).testBit i := by rw [has, hq]
  have hright : has (w - 1) i = (2 ^ (lowest w + 1) * q + (2 ^ lowest w - 1)).testBit i := by
    rw [has, hpred]
  rw [hleft, hright, Nat.testBit_two_pow_mul_add _ hpow,
    Nat.testBit_two_pow_mul_add _ (Nat.lt_of_le_of_lt (Nat.sub_le _ _) hpow)]
  by_cases hi : i < lowest w + 1
  · rw [if_pos hi, if_pos hi, Nat.testBit_two_pow, Nat.testBit_two_pow_sub_one]
    by_cases heq : lowest w = i
    · simp [heq]
    · simp [heq]
  · have hne : i ≠ lowest w := by omega
    rw [if_neg hi, if_neg hi, decide_eq_true hne, Bool.and_self, Bool.and_true]

lemma positions_zero : positions 0 = [] := by
  rw [List.eq_nil_iff_forall_not_mem]
  intro i hi
  rw [mem_positions, has_zero] at hi
  cases hi

/-- The lowest one is the first position, and clearing it leaves the others. -/
theorem positions_eq_cons (hw : w ≠ 0) : positions w = lowest w :: positions (clearLowest w) := by
  refine List.Subset.antisymm_of_pairwise (pairwise_positions w) ?_ ?_ ?_
  · refine List.pairwise_cons.mpr ⟨fun i hi => ?_, pairwise_positions _⟩
    rw [mem_positions, has_clearLowest hw, Bool.and_eq_true, decide_eq_true_eq] at hi
    obtain ⟨hhas, hne⟩ := hi
    refine Nat.lt_of_le_of_ne (Nat.le_of_not_lt fun hlt => ?_) (Ne.symm hne)
    rw [has_of_lt_lowest hlt] at hhas
    cases hhas
  · intro i hi
    rw [List.mem_cons, mem_positions, has_clearLowest hw, mem_positions.mp hi, Bool.true_and,
      decide_eq_true_eq]
    exact eq_or_ne i (lowest w)
  · intro i hi
    rw [mem_positions]
    obtain rfl | hi := List.mem_cons.mp hi
    · exact has_lowest hw
    · rw [mem_positions, has_clearLowest hw, Bool.and_eq_true] at hi
      exact hi.1

lemma next?_eq (w : UInt64) :
    next? w = (positions w).head?.map fun i => (i, clearLowest w) := by
  by_cases hw : w = 0
  · rw [next?, if_pos hw, hw, positions_zero]
    rfl
  · rw [next?, if_neg hw, positions_eq_cons hw]
    rfl

/-- The calls so far have had as many of the positions. -/
lemma positions_rest (k : ℕ) (w : UInt64) : positions (rest k w) = (positions w).drop k := by
  induction k generalizing w with
  | zero => rfl
  | succ k ih =>
    by_cases hw : w = 0
    · rw [rest, next?, if_pos hw, hw, positions_zero]
      rfl
    · rw [rest, next?, if_neg hw, positions_eq_cons hw, List.drop_succ_cons]
      exact ih (clearLowest w)

/-- A call answers with the position of its number, and with none after the last. -/
theorem next?_rest (k : ℕ) (w : UInt64) :
    (next? (rest k w)).map Prod.fst = (positions w)[k]? := by
  rw [next?_eq, positions_rest, List.head?_drop, Option.map_map]
  exact congrFun Option.map_id _

theorem scan_eq_positions (w : UInt64) : scan w = positions w := by
  fun_induction scan w with
  | case1 => exact positions_zero.symm
  | case2 w hw ih => rw [ih, positions_eq_cons hw]

end FlatXor.Mask
