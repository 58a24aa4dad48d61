import FlatXor.CodeTable
import FlatXor.Proofs.DataNumber
import FlatXor.Proofs.Trajectory
import Mathlib.Algebra.BigOperators.Group.List.Basic
import Mathlib.Data.List.Induction

/-!
# The rows of a table

A table grows by a column at a time. Each row then keeps its number, and gains the next
power of two when the new column has the parity. So rows and columns count the same
incidences: the sizes of the rows add up to the weights of the columns.
-/
namespace FlatXor.CodeTable

variable {p : CodeParams} {columns : List ParitySet} {c : ParitySet} {i j : ℕ}

/-- A row holds no more than the columns that there are. -/
lemma lt_of_mem_rowOf (h : j ∈ rowOf columns i) : j < columns.length := by
  have hlt := DataSet.lt_of_mem h
  rwa [capacity_rowOf] at hlt

theorem mem_rowOf_concat :
    j ∈ rowOf (columns ++ [c]) i ↔ j ∈ rowOf columns i ∨ (j = columns.length ∧ i ∈ c) := by
  rw [mem_rowOf, mem_rowOf]
  by_cases hj : j < columns.length
  · simp [List.getElem?_append_left hj, Nat.ne_of_lt hj]
  · have hnone : columns[j]? = none := List.getElem?_eq_none (Nat.le_of_not_lt hj)
    rw [List.getElem?_append_right (Nat.le_of_not_lt hj), List.getElem?_singleton]
    by_cases hlast : j = columns.length
    · simp [hlast]
    · have hgap : j - columns.length ≠ 0 := by omega
      simp [hnone, hlast, hgap]

/-- With a new column a row gains the next power of two, or nothing. -/
theorem toNat_rowOf_concat (columns : List ParitySet) (c : ParitySet) (i : ℕ) :
    (rowOf (columns ++ [c]) i).toNat =
      (rowOf columns i).toNat + if i ∈ c then 2 ^ columns.length else 0 := by
  have hlt := (rowOf columns i).toNat_lt
  rw [capacity_rowOf] at hlt
  have hsum : (rowOf columns i).toNat + (if i ∈ c then 2 ^ columns.length else 0) =
      2 ^ columns.length * (if i ∈ c then 1 else 0) + (rowOf columns i).toNat := by
    split_ifs <;> omega
  rw [hsum]
  apply Nat.eq_of_testBit_eq
  intro j
  rw [Nat.testBit_two_pow_mul_add _ hlt, Bool.eq_iff_iff, DataSet.testBit_toNat,
    mem_rowOf_concat]
  by_cases hj : j < columns.length
  · simp [hj, Nat.ne_of_lt hj, DataSet.testBit_toNat]
  · -- at and above the old capacity only the new column counts
    have hold : ¬ j ∈ rowOf columns i := fun h => hj (lt_of_mem_rowOf h)
    rw [if_neg hj]
    by_cases hc : i ∈ c
    · have hgap : j - columns.length = 0 ↔ j = columns.length := by omega
      simp [hold, hc, Nat.testBit_one_eq_true_iff_self_eq_zero, hgap]
    · simp [hold, hc]

/-- A row holds as many elements as there are columns with the parity. -/
theorem size_rowOf (columns : List ParitySet) (i : ℕ) :
    (rowOf columns i).size = columns.countP fun c => c.contains i := by
  rw [DataSet.size_eq_countP, capacity_rowOf]
  induction columns using List.reverseRecOn with
  | nil => rfl
  | append_singleton columns c ih =>
    have hold : (List.range columns.length).countP (rowOf (columns ++ [c]) i).contains =
        (List.range columns.length).countP (rowOf columns i).contains := by
      apply List.countP_congr
      intro j hj
      have hj : j ≠ columns.length := Nat.ne_of_lt (List.mem_range.mp hj)
      simp [mem_rowOf_concat, hj]
    have hnew : (rowOf (columns ++ [c]) i).contains columns.length = c.contains i := by
      have hnot : ¬ columns.length ∈ rowOf columns i :=
        fun h => Nat.lt_irrefl _ (lt_of_mem_rowOf h)
      rw [Bool.eq_iff_iff]
      simp [mem_rowOf_concat, hnot]
    rw [List.length_append, List.length_singleton, List.range_succ, List.countP_append, hold, ih,
      List.countP_append, List.countP_singleton, List.countP_singleton, hnew]

@[simp] theorem columns_build (p : CodeParams) (columns : List ParitySet) :
    (build p columns).columns = columns := rfl

@[simp] theorem params_build (p : CodeParams) (columns : List ParitySet) :
    (build p columns).params = p := rfl

theorem getElem?_rows_build (hi : i < p.parities) :
    (build p columns).rows[i]? = some (rowOf columns i) := by
  simp [build, hi]

theorem rows_build_eq_some_iff {row : DataSet} :
    (build p columns).rows[i]? = some row ↔ i < p.parities ∧ rowOf columns i = row := by
  by_cases hi : i < p.parities
  · rw [getElem?_rows_build hi, Option.some.injEq, and_iff_right hi]
  · have hnone : (build p columns).rows[i]? = none := by
      rw [List.getElem?_eq_none_iff, length_rows_build]
      exact Nat.le_of_not_lt hi
    rw [hnone]
    simp [hi]

/-- A sum of ones is a count. -/
lemma sum_map_indicator (q : ℕ → Bool) (l : List ℕ) :
    (l.map fun i => if q i then 1 else 0).sum = l.countP q := by
  induction l with
  | nil => rfl
  | cons i l ih => rw [List.map_cons, List.sum_cons, ih, List.countP_cons, Nat.add_comm]

/-- The sizes of the rows add up to the weights of the columns. -/
theorem sum_dataPerParity_build (h : p.Accepts columns) :
    (build p columns).dataPerParity.sum = columns.length * p.weight := by
  have hsizes : (build p columns).dataPerParity =
      (List.range p.parities).map fun i => columns.countP fun c => c.contains i := by
    simp [dataPerParity, build, Function.comp_def, size_rowOf]
  rw [hsizes]
  clear hsizes
  induction columns with
  | nil => simp
  | cons c columns ih =>
    have hc := CodeParams.admits_iff.mp (h c List.mem_cons_self)
    have hones := sum_map_indicator c.contains (List.range p.parities)
    rw [ParitySet.countP_contains p.parities_le hc.2, hc.1] at hones
    have hrest := ih fun d hd => h d (List.mem_cons_of_mem _ hd)
    simp only [List.countP_cons]
    rw [List.sum_map_add, hrest, hones, List.length_cons, Nat.succ_mul]

/-- No parity is missing when the columns have only parities of the code. -/
theorem misfit?_eq_none_iff :
    misfit? p columns = none ↔ ∀ c ∈ columns, ∀ i, i ∈ c → i < p.parities := by
  simp [misfit?, List.findSome?_eq_none_iff, List.find?_eq_none]

/-- A pool of candidates that the code admits has a table. -/
theorem ofPool_eq_ok (h : p.Accepts columns) : ofPool p columns = .ok (build p columns) := by
  have hnone : misfit? p columns = none :=
    misfit?_eq_none_iff.mpr fun c hc => (CodeParams.admits_iff.mp (h c hc)).2
  rw [ofPool, hnone]

theorem viewsAgree_iff {table : CodeTable} :
    table.viewsAgree = true ↔ ∀ i row, table.rows[i]? = some row →
      ∀ (j : ℕ) (c : ParitySet), table.columns[j]? = some c → (i ∈ c ↔ j ∈ row) := by
  have hentry : ∀ (c : ParitySet) (row : DataSet) (i j : ℕ),
      (c.contains i == row.contains j) = true ↔ (i ∈ c ↔ j ∈ row) := by
    intro c row i j
    rw [beq_iff_eq, Bool.eq_iff_iff, ParitySet.contains_iff, DataSet.contains_iff]
  simp only [viewsAgree, List.all_eq_true, Prod.forall, List.mem_zipIdx_iff_getElem?, hentry]
  exact ⟨fun h i row hrow j c hc => h row i hrow c j hc,
    fun h row i hrow c j hc => h i row hrow j c hc⟩

/-- A table is consistent when its rows are those that its columns make, and each column has as
many parities as the arity says. -/
theorem isConsistent_iff {table : CodeTable} :
    table.isConsistent = true ↔ table.rows = (build table.params table.columns).rows ∧
      ∀ c ∈ table.columns, c.size = table.params.weight := by
  have hparts : table.isConsistent = true ↔ (table.rows.length = table.params.parities ∧
      (∀ row ∈ table.rows, row.capacity = table.size) ∧
      (∀ c ∈ table.columns, c.size = table.params.weight)) ∧ table.viewsAgree = true := by
    simp [isConsistent, sizesFit, and_assoc]
  rw [hparts, viewsAgree_iff]
  constructor
  · rintro ⟨⟨hlength, hcapacity, hweight⟩, hviews⟩
    refine ⟨List.ext_getElem (by simp [hlength]) fun i hi hi' => ?_, hweight⟩
    have hrow : table.rows[i]? = some table.rows[i] := List.getElem?_eq_getElem hi
    have hsize := hcapacity _ (List.getElem_mem hi)
    have hbuilt : (build table.params table.columns).rows[i] = rowOf table.columns i := by
      simp [build]
    rw [hbuilt]
    refine DataSet.ext_mem (by rw [hsize, capacity_rowOf, size]) fun j => ?_
    rw [mem_rowOf]
    constructor
    · intro hj
      have hlt : j < table.columns.length := by
        have := DataSet.lt_of_mem hj
        rwa [hsize] at this
      have hc : table.columns[j]? = some table.columns[j] := List.getElem?_eq_getElem hlt
      exact ⟨_, hc, (hviews i _ hrow j _ hc).mpr hj⟩
    · rintro ⟨c, hc, hi⟩
      exact (hviews i _ hrow j c hc).mp hi
  · rintro ⟨hrows, hweight⟩
    rw [hrows]
    refine ⟨⟨length_rows_build _ _, ?_, hweight⟩, ?_⟩
    · simp [build, size]
    · intro i row hrow j c hc
      obtain ⟨-, rfl⟩ := rows_build_eq_some_iff.mp hrow
      simp [mem_rowOf, hc]

/-- The table of a pool that the code admits is consistent. -/
theorem isConsistent_build (h : p.Accepts columns) : (build p columns).isConsistent = true :=
  isConsistent_iff.mpr ⟨rfl, fun c hc => (CodeParams.admits_iff.mp (h c hc)).1⟩

end FlatXor.CodeTable
