import FlatXor.CodeParams
import Mathlib.Data.List.Nodup
import Mathlib.Data.List.Perm.Subperm

/-!
# Inclusion of parity sets

Inclusion is read through membership, so that an identity between sets is a
propositional one. The search only ever takes a candidate out of a needed set
that contains it and puts it back, and the identities here say that this restores
what was there.
-/
namespace FlatXor.ParitySet

instance : HasSubset ParitySet := ⟨fun a b => ∀ i, i ∈ a → i ∈ b⟩

@[simp] theorem isSubset_eq_true_iff {a b : ParitySet} : a.isSubset b = true ↔ a ⊆ b :=
  isSubset_iff

instance (a b : ParitySet) : Decidable (a ⊆ b) := decidable_of_iff _ isSubset_eq_true_iff

lemma subset_trans {a b c : ParitySet} (hab : a ⊆ b) (hbc : b ⊆ c) : a ⊆ c :=
  fun i hi => hbc i (hab i hi)

/-- The listed members of a smaller set are among those of a larger one, each once. -/
theorem size_le_of_subset {a b : ParitySet} (h : a ⊆ b) : a.size ≤ b.size := by
  have hnodup : a.toList.Nodup := (pairwise_toList a).imp Nat.ne_of_lt
  have hsub : a.toList ⊆ b.toList := by
    intro i hi
    rw [mem_toList] at hi ⊢
    exact h i hi
  simpa using (List.subperm_of_subset hnodup hsub).length_le

lemma diff_subset (a b : ParitySet) : a.diff b ⊆ a := fun _ hi => (mem_diff.mp hi).1

lemma subset_union_right (a b : ParitySet) : b ⊆ a.union b := fun _ hi => mem_union.mpr (.inr hi)

lemma union_subset {a b c : ParitySet} (ha : a ⊆ c) (hb : b ⊆ c) : a.union b ⊆ c := by
  intro i hi
  obtain hi | hi := mem_union.mp hi
  · exact ha i hi
  · exact hb i hi

/-- Taking out a part in one sweep is taking it out. -/
theorem symmDiff_of_subset {a b : ParitySet} (h : b ⊆ a) : a.symmDiff b = a.diff b := by
  apply ext_mem
  intro i
  have hi := h i
  rw [mem_symmDiff, mem_diff]
  tauto

/-- What was taken out of a set that contains it can be put back. -/
theorem diff_union_of_subset {a b : ParitySet} (h : b ⊆ a) : (a.diff b).union b = a := by
  apply ext_mem
  intro i
  have hi := h i
  rw [mem_union, mem_diff]
  tauto

/-- Nothing is lost when all but the surplus of `c` is joined with `c` again. -/
theorem diff_surplus_union {a b c : ParitySet} (h : c ⊆ a) :
    (a.diff (c.diff b)).union c = a := by
  apply ext_mem
  intro i
  have hi := h i
  rw [mem_union, mem_diff, mem_diff]
  tauto

end FlatXor.ParitySet
