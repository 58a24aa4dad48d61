import FlatXor.Proofs.DataNumber
import FlatXor.Proofs.DeclarationReader
import FlatXor.Proofs.WordScan
import Mathlib.Data.Finset.Sort
import Mathlib.Data.Fintype.Basic
import Mathlib.Order.SymmDiff

/-!
# Parity sets as finite sets

The members of a parity set are the positions of the ones in its word. Every finite set of
parity indices is the set of members of exactly one word, and each operation on words does to
the members what the operation of finite sets does. Scanned from the lowest one, the word gives
the members in ascending order, and so does its text.
-/
namespace FlatXor

namespace ParitySet

open scoped symmDiff

/-- The members of the set: the positions of the ones in its word. -/
def members (s : ParitySet) : Finset ParityIndex :=
  Finset.univ.filter fun i => s.bits.toNat.testBit i.val = true

variable {a b s : ParitySet} {i : ParityIndex} {l : List ParityIndex} {n : ℕ}

@[simp] theorem mem_members : i ∈ s.members ↔ i.val ∈ s := by
  rw [members, Finset.mem_filter]
  exact and_iff_right (Finset.mem_univ i)

theorem members_injective : Function.Injective members := by
  intro a b h
  refine ext_mem fun j => ⟨fun hj => ?_, fun hj => ?_⟩
  · exact mem_members.mp (h ▸ mem_members.mpr hj : (⟨j, lt_of_mem hj⟩ : ParityIndex) ∈ b.members)
  · exact mem_members.mp (h ▸ mem_members.mpr hj : (⟨j, lt_of_mem hj⟩ : ParityIndex) ∈ a.members)

theorem members_ofList (l : List ParityIndex) : (ofList l).members = l.toFinset := by
  ext i
  rw [mem_members, mem_ofList, List.mem_toFinset]
  exact ⟨fun ⟨j, hj, hji⟩ => Fin.ext hji ▸ hj, fun hi => ⟨i, hi, rfl⟩⟩

theorem members_bijective : Function.Bijective members := by
  refine ⟨members_injective, fun m => ⟨ofList (m.sort), ?_⟩⟩
  rw [members_ofList, Finset.sort_toFinset]

/-! ## Operations -/

theorem members_insert : (s.insert i).members = Insert.insert i s.members := by
  ext j
  simp [Fin.ext_iff]

theorem members_erase : (s.erase i).members = s.members.erase i := by
  ext j
  simp [Fin.ext_iff]

theorem members_union : (a.union b).members = a.members ∪ b.members := by
  ext j
  simp

theorem members_inter : (a.inter b).members = a.members ∩ b.members := by
  ext j
  simp

theorem members_diff : (a.diff b).members = a.members \ b.members := by
  ext j
  simp

theorem members_symmDiff : (a.symmDiff b).members = a.members ∆ b.members := by
  ext j
  simp [Finset.mem_symmDiff]

theorem isSubset_iff_members : a.isSubset b = true ↔ a.members ⊆ b.members := by
  rw [isSubset_iff]
  constructor
  · intro h i hi
    exact mem_members.mpr (h i.val (mem_members.mp hi))
  · intro h j hj
    have hj : (⟨j, lt_of_mem hj⟩ : ParityIndex) ∈ a.members := mem_members.mpr hj
    exact mem_members.mp (h hj)

theorem isEmpty_iff_members : s.isEmpty = true ↔ s.members = ∅ := by
  have hempty : empty.members = ∅ := members_ofList []
  rw [← hempty, members_injective.eq_iff, isEmpty, beq_iff_eq]
  exact ⟨fun h => congrArg mk h, congrArg bits⟩

/-- In ascending order the members are the list. -/
theorem toList_eq_sort (s : ParitySet) : s.toList = s.members.sort.map Fin.val := by
  have hsort : (s.members.sort.map Fin.val).Pairwise (· < ·) :=
    List.pairwise_map.mpr (Finset.sortedLT_sort s.members).pairwise
  refine List.Subset.antisymm_of_pairwise (pairwise_toList s) hsort ?_ ?_
  · intro j hj
    have hmem := mem_toList.mp hj
    have hsorted : (⟨j, lt_of_mem hmem⟩ : ParityIndex) ∈ s.members.sort :=
      (Finset.mem_sort _).mpr (mem_members.mpr hmem)
    exact List.mem_map_of_mem hsorted
  · intro j hj
    obtain ⟨i, hi, rfl⟩ := List.mem_map.mp hj
    exact mem_toList.mpr (mem_members.mp ((Finset.mem_sort _).mp hi))

theorem size_eq_card (s : ParitySet) : s.size = s.members.card := by
  rw [← length_toList, toList_eq_sort, List.length_map, Finset.length_sort]

/-- What the operations do to the members of two sets, and to an index. -/
structure OperationsAgree (a b : ParitySet) (i : ParityIndex) : Prop where
  insert : (a.insert i).members = Insert.insert i a.members
  erase : (a.erase i).members = a.members.erase i
  contains : a.contains i = true ↔ i ∈ a.members
  shifted : a.contains i = ((a.bits >>> UInt64.ofNat i) &&& 1 != 0)
  union : (a.union b).members = a.members ∪ b.members
  inter : (a.inter b).members = a.members ∩ b.members
  diff : (a.diff b).members = a.members \ b.members
  symmDiff : (a.symmDiff b).members = a.members ∆ b.members
  isSubset : a.isSubset b = true ↔ a.members ⊆ b.members
  size : a.size = a.members.card
  isEmpty : a.isEmpty = true ↔ a.members = ∅

theorem operationsAgree (a b : ParitySet) (i : ParityIndex) : OperationsAgree a b i where
  insert := members_insert
  erase := members_erase
  contains := contains_iff.trans mem_members.symm
  shifted := Bool.decide_eq_true.trans (Mask.has_eq_shift a.bits i.isLt)
  union := members_union
  inter := members_inter
  diff := members_diff
  symmDiff := members_symmDiff
  isSubset := isSubset_iff_members
  size := size_eq_card a
  isEmpty := isEmpty_iff_members

/-! ## Indices -/

lemma mapM_ofNat_map (l : List ParityIndex) : (l.map Fin.val).mapM ParityIndex.ofNat = .ok l := by
  induction l with
  | nil => rfl
  | cons i l ih =>
    have hi : ParityIndex.ofNat i.val = .ok i := by rw [ParityIndex.ofNat, ParityIndex.ofNat?_val]
    rw [List.map_cons, List.mapM_cons, hi, ih]
    rfl

theorem indices_eq (s : ParitySet) : s.indices = .ok s.members.sort := by
  rw [indices, Mask.scan_eq_positions, ← mapM_ofNat_map, ← toList_eq_sort]
  rfl

/-! ## All parities below a bound -/

theorem members_below (hn : n ≤ maxParities) :
    (below n).members = Finset.univ.filter fun i => i.val < n := by
  ext i
  rw [mem_members, mem_below hn, Finset.mem_filter]
  exact (and_iff_right (Finset.mem_univ i)).symm

/-- The word for `n` parities is a power of two less one, but for 64 the power does not fit. -/
theorem bits_below (hn : n ≤ maxParities) :
    (below n).bits =
      if n = maxParities then (0xffffffffffffffff : UInt64) else (1 <<< UInt64.ofNat n) - 1 := by
  by_cases hall : n = maxParities
  · rw [if_pos hall, hall]
    decide
  · have hlt : n < 64 := Nat.lt_of_le_of_ne hn hall
    have hpow : (1 <<< UInt64.ofNat n : UInt64).toNat = 2 ^ n := by
      rw [UInt64.toNat_shiftLeft, UInt64.toNat_ofNat',
        Nat.mod_eq_of_lt (Nat.lt_trans hlt (by decide)), Nat.mod_eq_of_lt hlt]
      rw [show (1 : UInt64).toNat = 1 from rfl, Nat.one_shiftLeft]
      exact Nat.mod_eq_of_lt (Nat.pow_lt_pow_right (by decide) hlt)
    have hone : (1 : UInt64) ≤ 1 <<< UInt64.ofNat n := by
      rw [UInt64.le_iff_toNat_le, hpow]
      exact Nat.one_le_two_pow
    rw [if_neg hall, ← UInt64.toNat_inj, UInt64.toNat_sub_of_le _ _ hone, hpow, below,
      UInt64.toNat_ofNat', Nat.one_shiftLeft]
    refine Nat.mod_eq_of_lt (Nat.lt_of_le_of_lt (Nat.sub_le _ _) ?_)
    exact Nat.pow_lt_pow_right (by decide) hlt

/-! ## Texts -/

lemma toList_render (s : ParitySet) :
    s.render.toList = '\x7b' ::
      ([',', ' '].intercalate ((s.toList.map Nat.repr).map String.toList) ++ ['\x7d']) := by
  simp [render, String.toList_intercalate]

lemma repr_injective : Function.Injective Nat.repr := by
  intro m n h
  rw [← Json.decimalValue_toDigits m, ← Nat.toList_repr, h, Nat.toList_repr,
    Json.decimalValue_toDigits]

/-- The members can be read off the text. -/
theorem render_injective : Function.Injective render := by
  intro a b h
  have hword : ∀ s : ParitySet, ∀ e ∈ s.toList.map Nat.repr,
      e.toList ≠ [] ∧ ArrayText.IsWord e.toList := by
    intro s e he
    obtain ⟨j, -, rfl⟩ := List.mem_map.mp he
    rw [Nat.toList_repr]
    exact ⟨Nat.toDigits_ne_nil, ArrayText.isWord_toDigits j⟩
  have htext := congrArg String.toList h
  rw [toList_render, toList_render] at htext
  have hinside := List.append_cancel_right (List.cons.inj htext).2
  have hlists : a.toList.map Nat.repr = b.toList.map Nat.repr := by
    rw [← ArrayText.entriesOf_intercalate (hword a), hinside,
      ArrayText.entriesOf_intercalate (hword b)]
  have hnumbers : a.toList = b.toList :=
    List.map_injective_iff.mpr repr_injective hlists
  refine ext_mem fun i => ?_
  rw [← mem_toList, hnumbers, mem_toList]

/-! ## The whole -/

/-- The words are the finite sets of indices, each of them once, and their operations are those
of the sets. The calls of a scan answer with the members in ascending order, as many as the size
says, and then with nothing. All of them are indices, which put together make the set again.
Indices in any order, and more than once, come back sorted and once. The set of all parities
below a bound is refused above 64 only, and a text belongs to a single set. -/
theorem words_refine_sets (a b : ParitySet) (i : ParityIndex) (l : List ParityIndex) (n : ℕ) :
    Function.Bijective members ∧
    OperationsAgree a b i ∧
    (∃ listed, a.indices = .ok listed ∧ listed.length = a.size ∧ listed.Pairwise (· < ·) ∧
      (∀ j, j ∈ listed ↔ j ∈ a.members) ∧
      (∀ k, (Mask.next? (Mask.rest k a.bits)).map Prod.fst = listed[k]?.map Fin.val) ∧
      ofList listed = a) ∧
    (ofList l).indices = .ok l.toFinset.sort ∧
    (n ≤ 64 → full n = .ok (below n) ∧
      (below n).bits =
        (if n = 64 then (0xffffffffffffffff : UInt64) else (1 <<< UInt64.ofNat n) - 1) ∧
      (below n).members = Finset.univ.filter fun j => j.val < n) ∧
    (64 < n → full n = .error (.parityCount n 64)) ∧
    (a.render = b.render ↔ a = b) := by
  refine ⟨members_bijective, operationsAgree a b i, ?_, ?_, fun hn => ?_, fun hn => ?_,
    render_injective.eq_iff⟩
  · refine ⟨a.members.sort, indices_eq a, ?_, (Finset.sortedLT_sort a.members).pairwise,
      fun j => Finset.mem_sort _, fun k => ?_, ?_⟩
    · rw [Finset.length_sort, size_eq_card]
    · rw [Mask.next?_rest, ← List.getElem?_map, ← toList_eq_sort, toList]
    · apply members_injective
      rw [members_ofList, Finset.sort_toFinset]
  · rw [indices_eq, members_ofList]
  · exact ⟨if_pos hn, bits_below hn, members_below hn⟩
  · exact if_neg (Nat.not_le_of_lt hn)

/-- Indices out of order, with the highest of them twice. -/
def scattered : List ParityIndex := ([63, 0, 63, 2] : List (Fin 64))

def gathered : List ParityIndex := ([0, 2, 63] : List (Fin 64))

/-- The highest index comes last and once, and a fourth call has no answer. All 64 parities fill
the word, and one more is refused. -/
theorem scattered_refines :
    (ofList scattered).indices = .ok gathered ∧
      Mask.next? (Mask.rest 2 (ofList scattered).bits) = some (63, 0) ∧
      Mask.next? (Mask.rest 3 (ofList scattered).bits) = none ∧
      64 ≤ 64 ∧ full 64 = .ok (below 64) ∧ (below 64).bits = 0xffffffffffffffff ∧
      64 < 65 ∧ full 65 = .error (.parityCount 65 64) := by
  have hsort : scattered.toFinset.sort = gathered := by
    have hset : scattered.toFinset = gathered.toFinset := by decide
    rw [hset]
    exact (List.toFinset_sort (· ≤ ·) (by decide)).mpr (by decide)
  have hfits : 64 ≤ 64 := Nat.le_refl 64
  have hmore : 64 < 65 := by decide
  obtain ⟨-, -, -, hindices, hfull, -⟩ :=
    words_refine_sets empty empty ⟨0, by decide⟩ scattered 64
  obtain ⟨-, -, -, -, -, hrefused, -⟩ :=
    words_refine_sets empty empty ⟨0, by decide⟩ scattered 65
  obtain ⟨hall, hbits, -⟩ := hfull hfits
  exact ⟨hsort ▸ hindices, by decide +kernel, by decide +kernel, hfits, hall, hbits, hmore,
    hrefused hmore⟩

end ParitySet

end FlatXor
