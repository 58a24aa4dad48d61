import FlatXor.FailureTable
import FlatXor.Proofs.TupleOrder
import Mathlib.Algebra.BigOperators.Intervals
import Mathlib.Data.List.Shortlex

/-!
# The rows of a failure table

A table for `n` fragments and a depth `d` has a row for each set of one to `d` fragments: its
members in ascending order, filled up with -1. The rows are in order of size, and those of one
size in lexicographic order. A row gives its set back, so that there are as many rows as sets.
-/
namespace FlatXor.FailureTable

/-! ## Rows and patterns -/

/-- The sets of fragments that a table has to have rows for. -/
def losses (fragments depth : ℕ) : Set (Finset ℕ) :=
  {s | s ⊆ Finset.range fragments ∧ s.Nonempty ∧ s.card ≤ depth}

/-- The row of a set of fragments. -/
def rowOf (s : Finset ℕ) : List Int :=
  s.sort.map Int.ofNat ++ List.replicate (failureWidth - s.card) (-1)

/-- The fragments that a row names. -/
def lost (row : List Int) : List ℕ := row.filterMap Int.toNat?

variable {t : FailureTable} {pattern : List ℕ} {s : Finset ℕ}

lemma lost_padded (pattern : List ℕ) : lost (padded pattern) = pattern := by
  have hfill : (List.replicate (failureWidth - pattern.length) (-1)).filterMap Int.toNat? = [] := by
    rw [List.filterMap_eq_nil_iff]
    intro cell hcell
    rw [List.eq_of_mem_replicate hcell]
    rfl
  rw [lost, padded, List.filterMap_append, hfill, List.append_nil, List.filterMap_map]
  exact List.filterMap_some

lemma rowOf_eq_padded (s : Finset ℕ) : rowOf s = padded s.sort := by
  rw [rowOf, padded, Finset.length_sort]

/-- The patterns are the increasing tuples of the sizes up to the depth. -/
theorem mem_patterns : pattern ∈ t.patterns ↔
    ∃ size, (1 ≤ size ∧ size ≤ t.depth) ∧ IsTuple t.fragments size pattern := by
  simp only [patterns, List.mem_flatMap, List.mem_range'_1, mem_tuples]
  refine exists_congr fun size => and_congr_left fun _ => ?_
  omega

/-- In ascending order a set of fragments is a pattern. -/
lemma sort_mem_patterns (hs : s ∈ losses t.fragments t.depth) : s.sort ∈ t.patterns := by
  obtain ⟨hsub, hne, hcard⟩ := hs
  refine mem_patterns.mpr ⟨s.card, ⟨Finset.card_pos.mpr hne, hcard⟩,
    (Finset.sortedLT_sort s).pairwise, fun i hi => ?_, Finset.length_sort _⟩
  exact Finset.mem_range.mp (hsub ((Finset.mem_sort _).mp hi))

/-- The members of a pattern are a set of fragments, and in ascending order they are the pattern. -/
lemma toFinset_mem_losses (h : pattern ∈ t.patterns) :
    pattern.toFinset ∈ losses t.fragments t.depth ∧ pattern.toFinset.sort = pattern := by
  obtain ⟨size, ⟨hpos, hdepth⟩, htuple⟩ := mem_patterns.mp h
  have hnodup : pattern.Nodup := htuple.increasing.imp Nat.ne_of_lt
  have hcard : pattern.toFinset.card = size := by
    rw [List.toFinset_card_of_nodup hnodup, htuple.length_eq]
  constructor
  · refine ⟨fun i hi => ?_, ?_, ?_⟩
    · exact Finset.mem_range.mpr (htuple.lt_bound i (List.mem_toFinset.mp hi))
    · rw [← Finset.card_pos, hcard]
      exact hpos
    · rw [hcard]
      exact hdepth
  · exact (List.toFinset_sort (· ≤ ·) hnodup).mpr (htuple.increasing.imp Nat.le_of_lt)

/-- Each set of fragments has one row, and each row is that of a set. -/
theorem bijOn_rowOf (t : FailureTable) :
    Set.BijOn rowOf (losses t.fragments t.depth) {row | row ∈ t.rows} := by
  refine ⟨fun s hs => ?_, fun s _ s' _ heq => ?_, fun row hrow => ?_⟩
  · rw [rowOf_eq_padded]
    exact List.mem_map_of_mem (sort_mem_patterns hs)
  · have hsort : lost (rowOf s) = lost (rowOf s') := congrArg lost heq
    rw [rowOf_eq_padded, rowOf_eq_padded, lost_padded, lost_padded] at hsort
    rw [← Finset.sort_toFinset s (· ≤ ·), hsort, Finset.sort_toFinset]
  · obtain ⟨pattern, hpattern, rfl⟩ := List.mem_map.mp hrow
    obtain ⟨hmem, hsort⟩ := toFinset_mem_losses hpattern
    exact ⟨pattern.toFinset, hmem, by rw [rowOf_eq_padded, hsort]⟩

lemma length_le_of_mem_patterns (h : pattern ∈ t.patterns) : pattern.length ≤ failureWidth := by
  obtain ⟨size, ⟨-, hdepth⟩, htuple⟩ := mem_patterns.mp h
  rw [htuple.length_eq]
  exact hdepth.trans t.depth_range.2

lemma length_of_mem_rows {row : List Int} (h : row ∈ t.rows) : row.length = failureWidth := by
  obtain ⟨pattern, hpattern, rfl⟩ := List.mem_map.mp h
  have := length_le_of_mem_patterns hpattern
  rw [padded, List.length_append, List.length_map, List.length_replicate]
  omega

/-! ## Order -/

/-- Smaller patterns come first, and those of one size in lexicographic order. -/
theorem pairwise_patterns (t : FailureTable) : t.patterns.Pairwise (List.Shortlex (· < ·)) := by
  have hlength : ∀ {size : ℕ} {l : List ℕ}, l ∈ tuples t.fragments size → l.length = size :=
    fun hl => (mem_tuples.mp hl).length_eq
  have hsizes : (List.range' 1 t.depth).Pairwise (· < ·) := List.pairwise_lt_range'
  rw [patterns, List.pairwise_flatMap]
  constructor
  · intro size _
    refine (TupleStream.pairwise_lex_take _ _).imp_of_mem fun hl hl' hlex => ?_
    exact .of_lex ((hlength hl).trans (hlength hl').symm) hlex
  · refine hsizes.imp fun hlt l hl l' hl' => .of_length_lt ?_
    rw [hlength hl, hlength hl']
    exact hlt

lemma pairwise_rows (t : FailureTable) :
    t.rows.Pairwise fun row row' => List.Shortlex (· < ·) (lost row) (lost row') := by
  rw [rows, List.pairwise_map]
  simp only [lost_padded]
  exact t.pairwise_patterns

lemma nodup_rows (t : FailureTable) : t.rows.Nodup := by
  refine t.pairwise_rows.imp ?_
  rintro row _ hless rfl
  obtain hlt | ⟨-, hlex⟩ := List.shortlex_def.mp hless
  · exact Nat.lt_irrefl _ hlt
  · exact List.lex_irrefl Nat.lt_irrefl _ hlex

/-! ## Number -/

lemma size_eq_sum (t : FailureTable) :
    t.size = ((List.range' 1 t.depth).map t.fragments.choose).sum := by
  rw [size, ← List.sum_eq_foldr, funext (Binomial.choose_eq_choose t.fragments)]

lemma length_rows (t : FailureTable) : t.rows.length = t.size := by
  rw [rows, List.length_map, patterns, List.length_flatMap, size_eq_sum]
  simp only [length_tuples]

lemma size_eq_sum_Icc (t : FailureTable) :
    t.size = ∑ size ∈ Finset.Icc 1 t.depth, t.fragments.choose size := by
  rw [size_eq_sum, Nat.Icc_eq_range']
  rfl

/-! ## Completeness -/

/-- The rows are those of all sets of at most `depth` fragments, each of them once, by size and
then in lexicographic order. -/
structure IsComplete (fragments depth : ℕ) (rows : List (List Int)) : Prop where
  bijective : Set.BijOn rowOf (losses fragments depth) {row | row ∈ rows}
  width : ∀ row ∈ rows, row.length = failureWidth
  ordered : rows.Pairwise fun row row' => List.Shortlex (· < ·) (lost row) (lost row')
  distinct : rows.Nodup
  number : rows.length = ∑ size ∈ Finset.Icc 1 depth, fragments.choose size

theorem isComplete_rows (t : FailureTable) : IsComplete t.fragments t.depth t.rows where
  bijective := t.bijOn_rowOf
  width := fun _ => length_of_mem_rows
  ordered := t.pairwise_rows
  distinct := t.nodup_rows
  number := by rw [length_rows, size_eq_sum_Icc]

end FlatXor.FailureTable
