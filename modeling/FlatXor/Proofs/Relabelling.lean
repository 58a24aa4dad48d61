import FlatXor.Proofs.DataNumber
import FlatXor.Proofs.ParitySubset
import Mathlib.Data.List.FinRange
import Mathlib.Logic.Equiv.Fintype

/-!
# New numbers for the parities

A permutation of the parity numbers renames the members of a parity set. Since every
number is the new one of just one old one, what can be said of sets through membership is
kept: inclusion, size, and the operations of set algebra. A permutation of the parities of
a code leaves the numbers alone that the code lacks, and so keeps the full set as well.
-/
namespace FlatXor

namespace CodeParams

variable {p : CodeParams}

/-- The permutation maps the parities of the code onto themselves. -/
def Keeps (p : CodeParams) (σ : Equiv.Perm ParityIndex) : Prop :=
  ∀ i : ParityIndex, (σ i).val < p.parities ↔ i.val < p.parities

/-- A permutation of the parities of the code, as one of all parity numbers. -/
def extend (p : CodeParams) (π : Equiv.Perm (Fin p.parities)) : Equiv.Perm ParityIndex :=
  π.viaFintypeEmbedding (Fin.castLEEmb p.parities_le)

@[simp] lemma extend_castLE (π : Equiv.Perm (Fin p.parities)) (i : Fin p.parities) :
    p.extend π (i.castLE p.parities_le) = (π i).castLE p.parities_le :=
  π.viaFintypeEmbedding_apply_image (Fin.castLEEmb p.parities_le) i

/-- A number that the code lacks stays. -/
lemma extend_of_le (π : Equiv.Perm (Fin p.parities)) {i : ParityIndex} (hi : p.parities ≤ i.val) :
    p.extend π i = i := by
  apply Equiv.Perm.viaFintypeEmbedding_apply_notMem_range
  rintro ⟨j, rfl⟩
  exact absurd j.isLt (Nat.not_lt_of_le hi)

theorem keeps_extend (π : Equiv.Perm (Fin p.parities)) : p.Keeps (p.extend π) := by
  intro i
  by_cases hi : i.val < p.parities
  · have himage := extend_castLE π ⟨i.val, hi⟩
    have hlt : (p.extend π i).val < p.parities := by
      rw [show i = Fin.castLE p.parities_le ⟨i.val, hi⟩ from rfl, himage]
      exact (π ⟨i.val, hi⟩).isLt
    exact ⟨fun _ => hi, fun _ => hlt⟩
  · rw [extend_of_le π (Nat.le_of_not_lt hi)]

end CodeParams

namespace ParitySet

variable {σ : Equiv.Perm ParityIndex} {a b s : ParitySet}

/-- The set with each of its parities under the new number. -/
def relabel (σ : Equiv.Perm ParityIndex) (s : ParitySet) : ParitySet :=
  ofList (((List.finRange maxParities).filter fun i => s.contains i.val).map σ)

@[simp] theorem mem_relabel {i : ParityIndex} : (σ i).val ∈ s.relabel σ ↔ i.val ∈ s := by
  rw [relabel, mem_ofList]
  constructor
  · rintro ⟨k, hk, hval⟩
    obtain ⟨j, hj, rfl⟩ := List.mem_map.mp hk
    obtain rfl : j = i := σ.injective (Fin.ext hval)
    simpa using hj
  · intro hi
    exact ⟨σ i, List.mem_map.mpr ⟨i, by simpa using hi, rfl⟩, rfl⟩

/-- Every number is the new one of some old one. -/
lemma exists_eq_of_lt (σ : Equiv.Perm ParityIndex) {j : ℕ} (hj : j < maxParities) :
    ∃ i, (σ i).val = j :=
  ⟨σ.symm ⟨j, hj⟩, by rw [Equiv.apply_symm_apply]⟩

/-- Sets are compared under the new numbers. -/
lemma ext_relabel (σ : Equiv.Perm ParityIndex)
    (h : ∀ i : ParityIndex, (σ i).val ∈ a ↔ (σ i).val ∈ b) : a = b := by
  apply ext_mem
  intro j
  by_cases hj : j < maxParities
  · obtain ⟨i, rfl⟩ := exists_eq_of_lt σ hj
    exact h i
  · exact ⟨fun ha => absurd (lt_of_mem ha) hj, fun hb => absurd (lt_of_mem hb) hj⟩

@[simp] theorem relabel_subset_iff : a.relabel σ ⊆ b.relabel σ ↔ a ⊆ b := by
  constructor
  · intro h i hi
    have hmem := h (σ ⟨i, lt_of_mem hi⟩) (mem_relabel.mpr hi)
    exact mem_relabel.mp hmem
  · intro h j hj
    obtain ⟨i, rfl⟩ := exists_eq_of_lt σ (lt_of_mem hj)
    exact mem_relabel.mpr (h i (mem_relabel.mp hj))

theorem relabel_injective (σ : Equiv.Perm ParityIndex) : Function.Injective (relabel σ) := by
  intro a b h
  apply ext_relabel (Equiv.refl ParityIndex)
  intro i
  rw [Equiv.refl_apply, ← mem_relabel (σ := σ), h, mem_relabel]

theorem relabel_union : (a.union b).relabel σ = (a.relabel σ).union (b.relabel σ) :=
  ext_relabel σ fun i => by simp only [mem_relabel, mem_union]

theorem relabel_diff : (a.diff b).relabel σ = (a.relabel σ).diff (b.relabel σ) :=
  ext_relabel σ fun i => by simp only [mem_relabel, mem_diff]

theorem relabel_symmDiff : (a.symmDiff b).relabel σ = (a.relabel σ).symmDiff (b.relabel σ) :=
  ext_relabel σ fun i => by simp only [mem_relabel, mem_symmDiff]

lemma size_eq_countP_finRange (s : ParitySet) :
    s.size = (List.finRange maxParities).countP fun i => s.contains i.val := by
  rw [← countP_contains (le_refl maxParities) fun _ => lt_of_mem, ← List.map_coe_finRange_eq_range,
    List.countP_map]
  rfl

/-- Renaming keeps the number of members. -/
@[simp] theorem size_relabel : (s.relabel σ).size = s.size := by
  have hmem : ∀ i : ParityIndex, (s.relabel σ).contains (σ i).val = s.contains i.val := by
    intro i
    rw [Bool.eq_iff_iff, contains_iff, contains_iff, mem_relabel]
  rw [size_eq_countP_finRange, size_eq_countP_finRange,
    ← (Equiv.Perm.map_finRange_perm σ).countP_eq, List.countP_map]
  exact List.countP_congr fun i _ => by rw [Function.comp_apply, hmem]

variable {p : CodeParams}

theorem relabel_full (hσ : p.Keeps σ) : p.full.relabel σ = p.full :=
  ext_relabel σ fun i => by rw [mem_relabel, CodeParams.mem_full, CodeParams.mem_full, hσ i]

/-- The code admits a candidate under the new numbers if it did under the old ones. -/
@[simp] theorem admits_relabel (hσ : p.Keeps σ) : p.admits (s.relabel σ) = p.admits s := by
  rw [Bool.eq_iff_iff, CodeParams.admits, CodeParams.admits, Bool.and_eq_true, Bool.and_eq_true,
    isSubset_eq_true_iff, isSubset_eq_true_iff, size_relabel]
  conv_lhs => rw [← relabel_full hσ, relabel_subset_iff]

/-- A permutation of the parities of the code renames just these. -/
theorem mem_relabel_extend {π : Equiv.Perm (Fin p.parities)} {i : Fin p.parities} :
    (π i).val ∈ s.relabel (p.extend π) ↔ i.val ∈ s := by
  have h := mem_relabel (σ := p.extend π) (s := s) (i := i.castLE p.parities_le)
  rwa [CodeParams.extend_castLE] at h

end ParitySet

end FlatXor
