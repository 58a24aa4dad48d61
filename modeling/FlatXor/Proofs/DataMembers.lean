import FlatXor.Proofs.DataNumber
import FlatXor.Proofs.JsonLeaves
import FlatXor.Proofs.WordScan
import Mathlib.Algebra.Order.Floor.Div
import Mathlib.Combinatorics.Colex
import Mathlib.Data.Finset.Sort
import Mathlib.Data.Nat.Digits.Defs

/-!
# Data sets as finite sets

A data set with room for the positions below its capacity stands for a finite set of such
positions. It starts out empty, and positions are added one after the other; one that is not
below the capacity is refused and changes nothing. Whatever the order and however often a
position is given, the set holds those below the capacity, and every question about it has the
answer that the finite set gives.
-/
namespace FlatXor.DataSet

variable {s t : DataSet} {i : ℕ}

/-- The members, as a finite set. -/
def members (s : DataSet) : Finset ℕ :=
  (Finset.range s.capacity).filter fun i => hasBit s.words i = true

@[simp] theorem mem_members : i ∈ s.members ↔ i ∈ s := by
  rw [members, Finset.mem_filter, Finset.mem_range]
  exact and_iff_right_of_imp lt_of_mem

theorem eq_iff_members : s = t ↔ s.capacity = t.capacity ∧ s.members = t.members := by
  constructor
  · rintro rfl
    exact ⟨rfl, rfl⟩
  · rintro ⟨hcapacity, hmembers⟩
    refine ext_mem hcapacity fun i => ?_
    rw [← mem_members, hmembers, mem_members]

/-! ## Adding positions -/

lemma attempt_of_lt (h : i < s.capacity) : s.attempt i = (s.insert i, none) := by
  rw [attempt, insertChecked, if_pos h]

lemma attempt_of_le (h : s.capacity ≤ i) :
    s.attempt i = (s, some (.dataIndex i s.capacity)) := by
  rw [attempt, insertChecked, if_neg (Nat.not_lt_of_le h)]

/-- An attempt has the effect of an insertion, which ignores what there is no room for. -/
lemma attempt_eq (s : DataSet) (i : ℕ) :
    s.attempt i =
      (s.insert i, if i < s.capacity then none else some (.dataIndex i s.capacity)) := by
  by_cases h : i < s.capacity
  · rw [attempt_of_lt h, if_pos h]
  · have hsame : s.insert i = s := dif_neg h
    rw [attempt_of_le (Nat.le_of_not_lt h), if_neg h, hsame]

theorem attempts_eq (s : DataSet) (l : List ℕ) :
    s.attempts l = (l.foldl insert s,
      l.map fun i => if i < s.capacity then none else some (.dataIndex i s.capacity)) := by
  induction l generalizing s with
  | nil => rfl
  | cons i l ih =>
    simp only [attempts, attempt_eq, ih, capacity_insert, List.foldl_cons, List.map_cons]

/-- Adding positions up to the first that is refused comes to attempts with those before it, and
the fault is the first that attempts with all of them meet. -/
theorem insertWhile_eq_attempts (s : DataSet) (l : List ℕ) :
    s.insertWhile l =
      ((s.attempts (l.takeWhile (· < s.capacity))).1, (s.attempts l).2.findSome? id) := by
  induction l generalizing s with
  | nil => rfl
  | cons i l ih =>
    by_cases h : i < s.capacity
    · have hchecked : s.insertChecked i = .ok (s.insert i) := if_pos h
      rw [insertWhile, hchecked, List.takeWhile_cons, decide_eq_true h, if_pos rfl, attempts,
        attempts, attempt_of_lt h]
      simp only [ih, capacity_insert, List.findSome?_cons, id_eq]
    · have hchecked : s.insertChecked i = .error (.dataIndex i s.capacity) := if_neg h
      rw [insertWhile, hchecked, List.takeWhile_cons, decide_eq_false h, if_neg Bool.false_ne_true,
        attempts, attempts, attempt_of_le (Nat.le_of_not_lt h)]
      rfl

lemma capacity_foldl_insert (s : DataSet) (l : List ℕ) :
    (l.foldl insert s).capacity = s.capacity := by
  induction l generalizing s with
  | nil => rfl
  | cons i l ih => rw [List.foldl_cons, ih, capacity_insert]

lemma mem_foldl_insert {l : List ℕ} :
    i ∈ l.foldl insert s ↔ (i ∈ l ∧ i < s.capacity) ∨ i ∈ s := by
  induction l generalizing s with
  | nil => simp
  | cons j l ih =>
    rw [List.foldl_cons, ih, mem_insert, capacity_insert, List.mem_cons, ← or_assoc, or_and_right]
    refine or_congr_left (or_comm.trans (or_congr_left ?_))
    constructor
    · rintro ⟨rfl, hj⟩
      exact ⟨rfl, hj⟩
    · rintro ⟨rfl, hi⟩
      exact ⟨rfl, hi⟩

theorem members_foldl_insert (capacity : ℕ) (l : List ℕ) :
    (l.foldl insert (empty capacity)).members = l.toFinset.filter (· < capacity) := by
  ext i
  simp [mem_foldl_insert]

/-! ## The words -/

/-- A bit of a word is a position of the set. -/
lemma hasBit_getElem {words : Array UInt64} {k j : ℕ} (hk : k < words.size) (hj : j < 64) :
    hasBit words (64 * k + j) = Mask.has words[k] j := by
  have hword : (64 * k + j) / 64 = k := by omega
  have hdigit : (64 * k + j) % 64 = j := by omega
  simp [hasBit, hword, hdigit, hk]

/-- A position below the capacity has a word, in which it is looked up and set. -/
theorem exists_word (h : i < s.capacity) :
    ∃ w, s.words[i / 64]? = some w ∧
      s.contains i = ((w >>> UInt64.ofNat (i % 64)) &&& 1 != 0) ∧
      (s.insert i).words =
        s.words.setIfInBounds (i / 64) (w ||| 1 <<< UInt64.ofNat (i % 64)) := by
  have hk : i / 64 < s.words.size := by
    rw [s.size_words]
    omega
  have hbit : i % 64 < 64 := Nat.mod_lt i (by decide)
  refine ⟨s.words[i / 64], Array.getElem?_eq_getElem hk, ?_, ?_⟩
  · rw [← Mask.has_eq_shift _ hbit, ← hasBit_getElem hk hbit, Nat.div_add_mod]
    exact Bool.decide_eq_true
  · have hinsert : (s.insert i).words = s.words.modify (i / 64) (· ||| Mask.single (i % 64)) := by
      rw [insert, dif_pos h]
    rw [hinsert]
    apply Array.ext
    · simp
    · intro k _ _
      rw [Array.getElem_modify, Array.getElem_setIfInBounds]
      by_cases heq : i / 64 = k
      · subst heq
        rw [if_pos rfl, if_pos rfl]
        rfl
      · rw [if_neg heq, if_neg heq]

theorem isEmpty_iff_members : s.isEmpty = true ↔ s.members = ∅ := by
  rw [isEmpty, Array.all_eq_true, Finset.eq_empty_iff_forall_notMem]
  constructor
  · intro h i hi
    obtain ⟨w, hw, hcontains, -⟩ := exists_word (lt_of_mem (mem_members.mp hi))
    obtain ⟨hk, rfl⟩ := Array.getElem?_eq_some_iff.mp hw
    rw [contains_iff.mpr (mem_members.mp hi), beq_iff_eq.mp (h (i / 64) hk)] at hcontains
    simp at hcontains
  · intro h k hk
    rw [beq_iff_eq]
    refine Mask.ext_has fun j => ?_
    rw [Mask.has_zero]
    by_cases hj : j < 64
    · rw [← hasBit_getElem hk hj, ← Bool.not_eq_true]
      exact fun hbit => h (64 * k + j) (mem_members.mpr hbit)
    · exact Mask.has_eq_false_of_le (Nat.le_of_not_lt hj)

/-! ## The list -/

lemma mem_toList : i ∈ s.toList ↔ i ∈ s := by
  simp only [toList, List.mem_flatMap, List.mem_map, Mask.mem_positions]
  constructor
  · rintro ⟨⟨w, k⟩, hw, j, hj, rfl⟩
    rw [List.mem_zipIdx_iff_getElem?, Array.getElem?_toList] at hw
    dsimp only at hw hj ⊢
    obtain ⟨hk, rfl⟩ := Array.getElem?_eq_some_iff.mp hw
    rw [mem_def, hasBit_getElem hk (Mask.lt_of_has hj)]
    exact hj
  · intro hi
    have hk : i / 64 < s.words.size := by
      have := lt_of_mem hi
      rw [s.size_words]
      omega
    refine ⟨(s.words[i / 64], i / 64), ?_, i % 64, ?_, Nat.div_add_mod i 64⟩
    · rw [List.mem_zipIdx_iff_getElem?, Array.getElem?_toList]
      exact Array.getElem?_eq_getElem hk
    · rw [← hasBit_getElem hk (Nat.mod_lt i (by decide)), Nat.div_add_mod]
      exact hi

/-- Within a word the positions ascend, and those of a later word are greater. -/
lemma pairwise_toList (s : DataSet) : s.toList.Pairwise (· < ·) := by
  rw [toList, List.pairwise_flatMap]
  constructor
  · rintro ⟨w, k⟩ -
    exact List.pairwise_map.mpr ((Mask.pairwise_positions w).imp fun h => Nat.add_lt_add_left h _)
  · have hnumbers : (s.words.toList.zipIdx.map Prod.snd).Pairwise (· < ·) := by
      rw [List.zipIdx_map_snd]
      exact List.pairwise_lt_range'
    refine (List.pairwise_map.mp hnumbers).imp ?_
    rintro ⟨w, k⟩ ⟨w', k'⟩ hlt i hi j hj
    obtain ⟨a, ha, rfl⟩ := List.mem_map.mp hi
    obtain ⟨b, -, rfl⟩ := List.mem_map.mp hj
    have := Mask.lt_of_has (Mask.mem_positions.mp ha)
    have hlt : k < k' := hlt
    omega

theorem toList_eq_sort (s : DataSet) : s.toList = s.members.sort := by
  refine List.Subset.antisymm_of_pairwise s.pairwise_toList
    (Finset.sortedLT_sort s.members).pairwise ?_ ?_
  · intro i hi
    exact (Finset.mem_sort _).mpr (mem_members.mpr (mem_toList.mp hi))
  · intro i hi
    exact mem_toList.mpr (mem_members.mp ((Finset.mem_sort _).mp hi))

theorem size_eq_card (s : DataSet) : s.size = s.members.card := by
  rw [size_eq_countP, List.countP_eq_length_filter]
  rfl

/-! ## The number -/

/-- The number is the one whose binary digits are the members. -/
theorem toNat_eq_sum (s : DataSet) : s.toNat = ∑ i ∈ s.members, 2 ^ i := by
  have hdigits : s.members = s.toNat.bitIndices.toFinset := by
    ext i
    rw [mem_members, List.mem_toFinset, Nat.mem_bitIndices, testBit_toNat]
  rw [hdigits, Finset.sum_toFinset_bitIndices_two_pow]

/-- The words are two digits each in base `2 ^ 32`. -/
theorem ofDigits_halves (l : List UInt64) :
    Nat.ofDigits (2 ^ 32) ((l.flatMap halves).map UInt32.toNat) = valueOf l := by
  induction l with
  | nil => rfl
  | cons w l ih =>
    have hlow : w.toUInt32.toNat = w.toNat % 2 ^ 32 := UInt64.toNat_toUInt32 w
    have hhigh : (w >>> 32).toUInt32.toNat = w.toNat / 2 ^ 32 := by
      have hshift : (w >>> 32).toNat = w.toNat / 2 ^ 32 := by
        rw [UInt64.toNat_shiftRight, Nat.shiftRight_eq_div_pow]
        rfl
      rw [UInt64.toNat_toUInt32, hshift]
      refine Nat.mod_eq_of_lt ?_
      have := w.toNat_lt
      omega
    have hsplit := Nat.mod_add_div w.toNat (2 ^ 32)
    have hsize : UInt64.size = 2 ^ 32 * 2 ^ 32 := rfl
    rw [List.flatMap_cons, halves, List.map_append, List.map_cons, List.map_cons, List.map_nil,
      List.cons_append, List.cons_append, List.nil_append, Nat.ofDigits_cons, Nat.ofDigits_cons,
      ih, hlow, hhigh, valueOf, hsize, Nat.mul_add, ← Nat.add_assoc, hsplit, Nat.mul_assoc]

lemma toNat_lt_iff : s.toNat < UInt64.size ↔ ∀ i ∈ s.members, i < 64 := by
  have hsize : UInt64.size = 2 ^ 64 := rfl
  rw [hsize]
  constructor
  · intro h i hi
    refine Nat.lt_of_not_le fun hle => ?_
    have hbit : s.toNat.testBit i = true := testBit_toNat.mpr (mem_members.mp hi)
    have hlarge : s.toNat < 2 ^ i :=
      Nat.lt_of_lt_of_le h (Nat.pow_le_pow_right (Nat.succ_pos 1) hle)
    rw [Nat.testBit_lt_two_pow hlarge] at hbit
    cases hbit
  · intro h
    refine Nat.lt_pow_two_of_testBit _ fun i hi => ?_
    rw [← Bool.not_eq_true, testBit_toNat, ← mem_members]
    exact fun hmem => Nat.not_lt_of_le hi (h i hmem)

lemma valueOf_eq_zero_iff (l : List UInt64) : valueOf l = 0 ↔ l.all (· == 0) = true := by
  induction l with
  | nil => simp [valueOf]
  | cons w l ih =>
    have hsize : 0 < UInt64.size := by decide
    rw [valueOf, Nat.add_eq_zero_iff, Nat.mul_eq_zero, List.all_cons, Bool.and_eq_true, ← ih,
      beq_iff_eq, ← UInt64.toNat_inj]
    simp [Nat.ne_of_gt hsize]

/-- The number as a word, when it is one. -/
lemma toWord?_eq (s : DataSet) :
    s.toWord? = if s.toNat < UInt64.size then some (UInt64.ofNat s.toNat) else none := by
  rw [toWord?, toNat]
  cases s.words.toList with
  | nil => rfl
  | cons low rest =>
    have hlow := low.toNat_lt
    rw [valueOf]
    by_cases hrest : rest.all (· == 0) = true
    · have hvalue : valueOf rest = 0 := (valueOf_eq_zero_iff rest).mpr hrest
      simp [hrest, hvalue, UInt64.toNat_lt_size]
    · have hvalue : valueOf rest ≠ 0 := fun h => hrest ((valueOf_eq_zero_iff rest).mp h)
      have hlarge : ¬ low.toNat + UInt64.size * valueOf rest < UInt64.size := by
        have := Nat.le_mul_of_pos_right UInt64.size (Nat.pos_of_ne_zero hvalue)
        omega
      simp [hrest, hlarge]

theorem toWord?_eq_some_iff {w : UInt64} :
    s.toWord? = some w ↔ (∀ i ∈ s.members, i < 64) ∧ w.toNat = s.toNat := by
  rw [toWord?_eq, ← toNat_lt_iff]
  by_cases h : s.toNat < UInt64.size
  · have hword : (UInt64.ofNat s.toNat).toNat = s.toNat := UInt64.toNat_ofNat_of_lt' h
    rw [if_pos h, Option.some_inj, ← UInt64.toNat_inj, hword]
    exact ⟨fun heq => ⟨h, heq.symm⟩, fun heq => heq.2.symm⟩
  · simp [h]

theorem toWord?_eq_none_iff : s.toWord? = none ↔ ∃ i ∈ s.members, 64 ≤ i := by
  rw [toWord?_eq]
  by_cases h : s.toNat < UInt64.size
  · have hsmall := toNat_lt_iff.mp h
    rw [if_pos h]
    refine iff_of_false (Option.some_ne_none _) ?_
    rintro ⟨i, hi, hle⟩
    exact Nat.not_lt_of_le hle (hsmall i hi)
  · rw [if_neg h]
    rw [toNat_lt_iff] at h
    push Not at h
    exact iff_of_true rfl h

/-! ## The whole -/

/-- What is asked of the set is answered as for the given capacity and members. -/
structure Represents (s : DataSet) (capacity : ℕ) (m : Finset ℕ) : Prop where
  capacity_eq : s.capacity = capacity
  contains : ∀ i < capacity, s.containsChecked i = .ok (decide (i ∈ m))
  /-- Without room for a position nothing is done. -/
  refused : ∀ i, capacity ≤ i → s.containsChecked i = .error (.dataIndex i capacity) ∧
    s.attempt i = (s, some (.dataIndex i capacity))
  /-- With room for it a position has a word, where it is looked up and set. -/
  word : ∀ i < capacity, ∃ w, s.words[i / 64]? = some w ∧
    s.contains i = ((w >>> UInt64.ofNat (i % 64)) &&& 1 != 0) ∧
    (s.insert i).words = s.words.setIfInBounds (i / 64) (w ||| 1 <<< UInt64.ofNat (i % 64))
  words_size : s.words.size = capacity ⌈/⌉ 64
  words_below : ∀ k w, s.words[k]? = some w →
    ∀ j, w.toNat.testBit j = true → 64 * k + j < capacity
  toList_eq : s.toList = m.sort
  /-- The words are scanned one after the other. -/
  scan_eq : (s.words.toList.zipIdx.flatMap fun (w, k) => (Mask.scan w).map (64 * k + ·)) = m.sort
  size_eq : s.size = m.card
  isEmpty_iff : s.isEmpty = true ↔ m = ∅
  toNat_eq : s.toNat = ∑ i ∈ m, 2 ^ i
  digits_eq : Nat.ofDigits (2 ^ 32) ((s.words.toList.flatMap halves).map UInt32.toNat) =
    ∑ i ∈ m, 2 ^ i
  toDecimal_eq : s.toDecimal = Nat.repr (∑ i ∈ m, 2 ^ i)
  decimal_eq : decimalNumber? s.toDecimal.toList = some (∑ i ∈ m, 2 ^ i)
  toWord?_some : ∀ w, s.toWord? = some w ↔ (∀ i ∈ m, i < 64) ∧ w.toNat = ∑ i ∈ m, 2 ^ i
  toWord?_none : s.toWord? = none ↔ ∃ i ∈ m, 64 ≤ i

theorem represents_members (s : DataSet) : Represents s s.capacity s.members where
  capacity_eq := rfl
  contains := by
    intro i hi
    rw [containsChecked, if_pos hi, contains]
    simp only [mem_members]
  refused := by
    intro i hi
    rw [containsChecked, if_neg (Nat.not_lt_of_le hi)]
    exact ⟨rfl, attempt_of_le hi⟩
  word := fun _ hi => exists_word hi
  words_size := s.size_words
  words_below := by
    intro k w hw j hj
    obtain ⟨hk, rfl⟩ := Array.getElem?_eq_some_iff.mp hw
    refine lt_of_mem (s := s) ?_
    rw [mem_def, hasBit_getElem hk (Mask.lt_of_has hj)]
    exact hj
  toList_eq := toList_eq_sort s
  scan_eq := by
    rw [← toList_eq_sort, toList]
    simp only [Mask.scan_eq_positions]
  size_eq := size_eq_card s
  isEmpty_iff := isEmpty_iff_members
  toNat_eq := toNat_eq_sum s
  digits_eq := by rw [ofDigits_halves, ← toNat_eq_sum, toNat]
  toDecimal_eq := by rw [toDecimal, toNat_eq_sum]
  decimal_eq := by rw [toDecimal, Nat.toList_repr, Json.decimalNumber?_toDigits, toNat_eq_sum]
  toWord?_some := fun _ => by rw [toWord?_eq_some_iff, toNat_eq_sum]
  toWord?_none := toWord?_eq_none_iff

/-- After any attempts to add positions the set has those that it has room for as its members,
and answers accordingly, while each of the others was refused. Attempts on sets of one capacity
end in equal sets just when the members are the same. -/
theorem holds_what_was_added (capacity : ℕ) (l : List ℕ) :
    ((empty capacity).attempts l).2 =
      (l.map fun i => if i < capacity then none else some (.dataIndex i capacity)) ∧
    Represents ((empty capacity).attempts l).1 capacity (l.toFinset.filter (· < capacity)) ∧
    ∀ capacity' l', ((empty capacity).attempts l).1 = ((empty capacity').attempts l').1 ↔
      capacity = capacity' ∧
        l.toFinset.filter (· < capacity) = l'.toFinset.filter (· < capacity') := by
  have hroom : ∀ (n : ℕ) (l : List ℕ), (l.foldl insert (empty n)).capacity = n := by
    intro n l
    rw [capacity_foldl_insert, capacity_empty]
  simp only [attempts_eq, capacity_empty]
  refine ⟨rfl, ?_, fun capacity' l' => ?_⟩
  · have h := represents_members (l.foldl insert (empty capacity))
    rwa [hroom, members_foldl_insert] at h
  · rw [eq_iff_members, hroom, hroom, members_foldl_insert, members_foldl_insert]

/-- A position in each of two words, given in any order, and one that there is no room for. -/
example : ((empty 70).attempts [64, 70, 0, 64]).1 = ((empty 70).attempts [0, 64]).1 ∧
    ((empty 70).attempts [64, 70, 0, 64]).1.toNat = 18446744073709551617 := by
  decide +kernel

end FlatXor.DataSet
