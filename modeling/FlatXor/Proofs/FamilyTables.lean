import FlatXor.CodeFamily
import FlatXor.Proofs.CopyOrder
import FlatXor.Proofs.TableRows

/-!
# The tables of a family

A search that has converged has lost no candidate, so its restore order is the initial
pool in another order. Every initial segment of it consists of candidates that the code
admits, and so has a consistent table. From one size to the next a table keeps what it
has, and gains a column and one digit in each of its rows.
-/
namespace FlatXor

namespace CodeFamily

variable {f : CodeFamily} {size : ℕ} {table : CodeTable}

lemma table?_eq_some_iff :
    f.table? size = some table ↔
      f.firstSize ≤ size ∧ size ≤ f.lastSize ∧ f.tableAt size = table := by
  simp [table?, and_assoc]

lemma table?_isSome_iff : (f.table? size).isSome = true ↔ f.firstSize ≤ size ∧ size ≤ f.lastSize := by
  unfold table?
  split_ifs with h <;> simp [h]

/-- The tables of the family are those of its sizes, in their order. -/
theorem tables_map_some (f : CodeFamily) : f.tables.map some = f.sizes.map f.table? := by
  rw [tables, List.map_map]
  apply List.map_congr_left
  intro size hsize
  exact (table?_eq_some_iff.mpr ⟨(mem_sizes.mp hsize).1, (mem_sizes.mp hsize).2, rfl⟩).symm

lemma columns_tableAt (f : CodeFamily) (size : ℕ) :
    (f.tableAt size).columns = f.restoreOrder.take size := rfl

/-- The next table has one more column. -/
theorem tableAt_succ {c : ParitySet} (hc : f.restoreOrder[size]? = some c) :
    f.tableAt (size + 1) = .build f.params ((f.tableAt size).columns ++ [c]) := by
  rw [tableAt, List.take_add_one, hc, columns_tableAt]
  rfl

/-- From one size to the next each row gains one digit, which tells whether the new
candidate has the parity. -/
theorem toNat_rows_succ {c : ParitySet} {i : ℕ} (hc : f.restoreOrder[size]? = some c)
    (hi : i < f.params.parities) :
    ∃ row row', (f.tableAt size).rows[i]? = some row ∧ (f.tableAt (size + 1)).rows[i]? = some row' ∧
      row'.toNat = row.toNat + if i ∈ c then 2 ^ size else 0 := by
  have hlen : (f.restoreOrder.take size).length = size :=
    List.length_take_of_le (Nat.le_of_lt (List.getElem?_eq_some_iff.mp hc).1)
  have hnext : (f.tableAt (size + 1)).rows[i]? =
      some (CodeTable.rowOf (f.restoreOrder.take size ++ [c]) i) := by
    rw [tableAt_succ hc]
    exact CodeTable.getElem?_rows_build hi
  refine ⟨_, _, CodeTable.getElem?_rows_build hi, hnext, ?_⟩
  rw [CodeTable.toNat_rowOf_concat, hlen]

end CodeFamily

namespace Search

/-- The restore order is the initial pool in another order, of which the final pool has as
many candidates as there are parities, or all when there are fewer. -/
theorem restoreOrder_of_run {p : CodeParams} {pool : Pool} {detect : Bool} {s : Search}
    {maxSteps : Option ℕ} {o : SearchOutcome} (hs : Begins p detect pool s)
    (hrun : s.run maxSteps = some (.ok o)) :
    (CodeFamily.ofOutcome o).params = p ∧ (CodeFamily.ofOutcome o).restoreOrder.Perm pool ∧
      (CodeFamily.ofOutcome o).firstSize = min p.parities pool.length := by
  rw [hs.eq_start] at hrun
  obtain ⟨hparams, hperm, hfirst⟩ := outcome_of_run hs.accepts hrun
  exact ⟨hparams, ((List.reverse_perm o.used).append_left o.pool).trans hperm, hfirst⟩

/-- The family of a search that has converged. Its restore order is the initial pool in
another order, and there is one table for each size from that of the final pool to that of
the initial one. Each is built without a fault from an initial segment of the restore
order, is consistent, and feeds as many parities in all as its columns have. The next one
has one more digit in each row, which tells whether the next candidate has the parity. -/
theorem family_of_run {p : CodeParams} {pool : Pool} {detect : Bool} {s : Search}
    {maxSteps : Option ℕ} {o : SearchOutcome} {f : CodeFamily} (hs : Begins p detect pool s)
    (hrun : s.run maxSteps = some (.ok o)) (hf : f = CodeFamily.ofOutcome o) :
    f.params = p ∧ f.restoreOrder.Perm pool ∧
    f.firstSize = min p.parities pool.length ∧ f.lastSize = pool.length ∧
    f.count = pool.length - min p.parities pool.length + 1 ∧
    f.sizes = List.range' f.firstSize f.count ∧ f.tables.map some = f.sizes.map f.table? ∧
    (∀ k, (f.table? k).isSome = true ↔ f.firstSize ≤ k ∧ k ≤ f.lastSize) ∧
    ∀ k table, f.table? k = some table →
      CodeTable.ofPool p (f.restoreOrder.take k) = .ok table ∧
      table.columns = f.restoreOrder.take k ∧ table.size = k ∧
      table.rows.map DataSet.capacity = List.replicate p.parities k ∧
      table.isConsistent = true ∧ table.dataPerParity.sum = k * p.weight ∧
      ∀ next, f.table? (k + 1) = some next →
        ∃ c, f.restoreOrder[k]? = some c ∧ ∀ i < p.parities, ∃ row row',
          table.rows[i]? = some row ∧ next.rows[i]? = some row' ∧
            row'.toNat = row.toNat + if i ∈ c then 2 ^ k else 0 := by
  have hpool := hs.accepts
  obtain ⟨hp, horder, hfirstSize⟩ := restoreOrder_of_run hs hrun
  rw [← hf] at hp horder hfirstSize
  have hlast : f.lastSize = pool.length := horder.length_eq
  have hcount : f.count = pool.length - min p.parities pool.length + 1 := by
    rw [CodeFamily.count, hlast, hfirstSize]
  refine ⟨hp, horder, hfirstSize, hlast, hcount, rfl, f.tables_map_some,
    fun k => CodeFamily.table?_isSome_iff, ?_⟩
  intro k table htable
  obtain ⟨-, hk, rfl⟩ := CodeFamily.table?_eq_some_iff.mp htable
  have haccepts : p.Accepts (f.restoreOrder.take k) :=
    fun c hc => hpool c (horder.subset (List.mem_of_mem_take hc))
  have hlen : (f.restoreOrder.take k).length = k := List.length_take_of_le hk
  rw [CodeFamily.tableAt, hp]
  refine ⟨CodeTable.ofPool_eq_ok haccepts, rfl, hlen, ?_, CodeTable.isConsistent_build haccepts,
    ?_, ?_⟩
  · simp [CodeTable.build, Function.comp_def, hlen]
  · rw [CodeTable.sum_dataPerParity_build haccepts, hlen]
  · intro next hnext
    obtain ⟨-, hk', rfl⟩ := CodeFamily.table?_eq_some_iff.mp hnext
    have hget : f.restoreOrder[k]? = some f.restoreOrder[k] := List.getElem?_eq_getElem hk'
    refine ⟨_, hget, fun i hi => ?_⟩
    have hrows := CodeFamily.toNat_rows_succ hget (i := i) (by rwa [hp])
    rwa [CodeFamily.tableAt, hp] at hrows

/-- Six candidates for four parities, four of them equal, leave those four and restore the
other two. With the first of these the rows of its parities 0 and 2 gain the digit `2 ^ 4`. -/
theorem returnedFirst_family :
    ∃ o f, returnedFirst.run none = some (.ok o) ∧ f = CodeFamily.ofOutcome o ∧
      f.restoreOrder.Perm returnedFirst.state.pool ∧
      (f.firstSize = 4 ∧ f.lastSize = 6 ∧ f.count = 3) ∧
      ∃ table next, f.table? 4 = some table ∧ f.table? 5 = some next ∧
        table.isConsistent = true ∧ table.dataPerParity.sum = 4 * 2 ∧
        table.rows.map DataSet.toNat = [15, 15, 0, 0] ∧
        next.rows.map DataSet.toNat = [31, 15, 16, 0] ∧
        ∃ c, f.restoreOrder[4]? = some c ∧ ∀ i < 4, ∃ row row',
          table.rows[i]? = some row ∧ next.rows[i]? = some row' ∧
            row'.toNat = row.toNat + if i ∈ c then 2 ^ 4 else 0 := by
  have hs : Begins fourTwo true returnedFirst.state.pool returnedFirst := .ofPool rfl
  have hrun : returnedFirst.run none = some (.ok (returnedFirst.after 4).outcome) := by
    decide +kernel
  obtain ⟨-, hperm, hfirst, hlast, hcount, -, -, hsizes, htables⟩ := family_of_run hs hrun rfl
  obtain ⟨table, htable⟩ := Option.isSome_iff_exists.mp
    ((hsizes 4).mpr ⟨by rw [hfirst]; decide, by rw [hlast]; decide⟩)
  obtain ⟨next, hnext⟩ := Option.isSome_iff_exists.mp
    ((hsizes 5).mpr ⟨by rw [hfirst]; decide, by rw [hlast]; decide⟩)
  obtain ⟨-, -, -, -, hconsistent, hsum, hgrow⟩ := htables 4 table htable
  have hrows : table.rows.map DataSet.toNat = [15, 15, 0, 0] := by
    obtain ⟨-, -, rfl⟩ := CodeFamily.table?_eq_some_iff.mp htable
    decide +kernel
  have hrows' : next.rows.map DataSet.toNat = [31, 15, 16, 0] := by
    obtain ⟨-, -, rfl⟩ := CodeFamily.table?_eq_some_iff.mp hnext
    decide +kernel
  exact ⟨_, _, hrun, rfl, hperm, ⟨hfirst, hlast, hcount⟩, table, next, htable, hnext, hconsistent,
    hsum, hrows, hrows', hgrow next hnext⟩

end Search

end FlatXor
