/-!
# Words read as sets of bit positions

A 64-bit word stands for the set of positions of its one bits. Both the parity
sets, which fit one word, and the data sets, which span several, are built on
the operations here. `has` is the view: every operation is described by what it
does to it. A scan finds the positions from the lowest on, clearing one after the
other.
-/
namespace FlatXor.Mask

/-- Is `i` one of the positions? No position is 64 or more. -/
def has (w : UInt64) (i : Nat) : Bool := w.toNat.testBit i

/-- The word whose only position is `i`, for `i < 64`. -/
def single (i : Nat) : UInt64 := 1 <<< UInt64.ofNat i

/-- The number of ones among the `width` lowest binary digits. -/
def ones : Nat → Nat → Nat
  | 0, _ => 0
  | width + 1, n => n % 2 + ones width (n / 2)

/-- The number of positions. -/
def count (w : UInt64) : Nat := ones 64 w.toNat

/-- The positions in ascending order. -/
def positions (w : UInt64) : List Nat := (List.range 64).filter (has w)

/-- The position of the lowest one, which is the number of zeros below it. -/
def lowest (w : UInt64) : Nat := w.toBitVec.ctz.toNat

def clearLowest (w : UInt64) : UInt64 := w &&& (w - 1)

/-- A call of a scan: the next position, and the word that is left to be scanned. -/
def next? (w : UInt64) : Option (Nat × UInt64) :=
  if w = 0 then none else some (lowest w, clearLowest w)

theorem one_le {w : UInt64} (hw : w ≠ 0) : 1 ≤ w := by
  refine UInt64.le_iff_toNat_le.mpr (Nat.one_le_iff_ne_zero.mpr fun h => hw ?_)
  exact UInt64.toNat_inj.mp h

/-- The difference does not wrap around. -/
theorem toNat_sub_one {w : UInt64} (hw : w ≠ 0) : (w - 1).toNat = w.toNat - 1 :=
  UInt64.toNat_sub_of_le _ _ (one_le hw)

theorem toNat_clearLowest_lt {w : UInt64} (hw : w ≠ 0) : (clearLowest w).toNat < w.toNat := by
  have hle : (clearLowest w).toNat ≤ (w - 1).toNat := Nat.and_le_right
  have hpos : 1 ≤ w.toNat := UInt64.le_iff_toNat_le.mp (one_le hw)
  rw [toNat_sub_one hw] at hle
  omega

/-- All answers of a scan. -/
def scan (w : UInt64) : List Nat :=
  if w = 0 then [] else lowest w :: scan (clearLowest w)
termination_by w.toNat
decreasing_by
  rename_i hw
  exact toNat_clearLowest_lt hw

theorem has_eq_false_of_le {w : UInt64} {i : Nat} (h : 64 ≤ i) : has w i = false :=
  Nat.testBit_lt_two_pow (Nat.lt_of_lt_of_le w.toNat_lt (Nat.pow_le_pow_right (by omega) h))

theorem lt_of_has {w : UInt64} {i : Nat} (h : has w i = true) : i < 64 := by
  refine Nat.lt_of_not_le fun hi => ?_
  simp [has_eq_false_of_le hi] at h

/-- Two words with the same positions are the same word. -/
theorem ext_has {v w : UInt64} (h : ∀ i, has v i = has w i) : v = w :=
  UInt64.toNat_inj.1 (Nat.eq_of_testBit_eq h)

@[simp] theorem has_zero (i : Nat) : has 0 i = false := by simp [has]

@[simp] theorem has_and (v w : UInt64) (i : Nat) : has (v &&& w) i = (has v i && has w i) := by
  simp [has]

@[simp] theorem has_or (v w : UInt64) (i : Nat) : has (v ||| w) i = (has v i || has w i) := by
  simp [has]

@[simp] theorem has_xor (v w : UInt64) (i : Nat) : has (v ^^^ w) i = (has v i ^^ has w i) := by
  simp [has]

theorem has_single {i : Nat} (hi : i < 64) (j : Nat) : has (single i) j = decide (i = j) := by
  have h64 : i % 2 ^ 64 % 64 = i := by
    rw [Nat.mod_eq_of_lt (Nat.lt_trans hi (by decide)), Nat.mod_eq_of_lt hi]
  have hlt : 1 <<< i < 2 ^ 64 := by
    rw [Nat.one_shiftLeft]
    exact Nat.pow_lt_pow_right (by omega) hi
  simp only [has, single, UInt64.toNat_shiftLeft, UInt64.toNat_ofNat', h64]
  rw [show (1 : UInt64).toNat = 1 from rfl, Nat.mod_eq_of_lt hlt, Nat.one_shiftLeft,
    Nat.testBit_two_pow]

theorem has_complement (w : UInt64) (i : Nat) : has (~~~w) i = (decide (i < 64) && !has w i) := by
  have h := w.toNat_lt
  rw [has, UInt64.toNat_not, show UInt64.size - 1 - w.toNat = 2 ^ 64 - (w.toNat + 1) by
    simp only [UInt64.size]; omega, Nat.testBit_two_pow_sub_succ h, has]

@[simp] theorem mem_positions {w : UInt64} {i : Nat} : i ∈ positions w ↔ has w i = true := by
  simp only [positions, List.mem_filter, List.mem_range]
  exact ⟨fun h => h.2, fun h => ⟨lt_of_has h, h⟩⟩

/-- The ascending order is strict. -/
theorem pairwise_positions (w : UInt64) : (positions w).Pairwise (· < ·) :=
  List.Pairwise.filter _ List.pairwise_lt_range

theorem ones_eq_length (width n : Nat) :
    ones width n = ((List.range width).filter n.testBit).length := by
  induction width generalizing n with
  | zero => rfl
  | succ width ih =>
    have hshift : ((List.range width).map Nat.succ).filter n.testBit =
        ((List.range width).filter (n / 2).testBit).map Nat.succ := by
      rw [List.filter_map]
      exact congrArg _ (List.filter_congr fun i _ => by simp [Nat.testBit_succ])
    rw [ones, ih, List.range_succ_eq_map, List.filter_cons, hshift, Nat.testBit_zero]
    rcases Nat.mod_two_eq_zero_or_one n with h | h <;> simp [h]; omega

/-- Counting the ones counts the positions listed. -/
theorem count_eq_length (w : UInt64) : count w = (positions w).length :=
  ones_eq_length 64 w.toNat

@[simp] theorem count_zero : count 0 = 0 := by decide

end FlatXor.Mask
