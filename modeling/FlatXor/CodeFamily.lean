import FlatXor.CodeTable
import FlatXor.Search

/-!
# The codes of a search

A search that has converged leaves a smallest pool and the stack of its
selections. Restoring the selections one at a time, the oldest first, lets the
pool grow back to all candidates, and each pool on the way is a code of its own.
These codes are the family of the search. All of them are initial segments of one
list, the restore order.
-/
namespace FlatXor

structure CodeFamily where
  params : CodeParams
  /-- The smallest pool, followed by the selections from the oldest to the latest. -/
  restoreOrder : List ParitySet
  /-- The size of the smallest pool. -/
  firstSize : Nat
  firstSize_le : firstSize ≤ restoreOrder.length
  deriving DecidableEq

namespace CodeFamily

def ofOutcome (outcome : SearchOutcome) : CodeFamily where
  params := outcome.params
  restoreOrder := outcome.pool ++ outcome.used.oldestFirst
  firstSize := outcome.pool.length
  firstSize_le := by simp

/-- The size of the largest pool. -/
def lastSize (f : CodeFamily) : Nat := f.restoreOrder.length

/-- The number of codes. -/
def count (f : CodeFamily) : Nat := f.lastSize - f.firstSize + 1

/-- The sizes of the codes, in ascending order. -/
def sizes (f : CodeFamily) : List Nat := List.range' f.firstSize f.count

/-- The table of the first `size` candidates of the restore order. -/
def tableAt (f : CodeFamily) (size : Nat) : CodeTable := .build f.params (f.restoreOrder.take size)

/-- The table of the code of the given size, if there is one. -/
def table? (f : CodeFamily) (size : Nat) : Option CodeTable :=
  if f.firstSize ≤ size ∧ size ≤ f.lastSize then some (f.tableAt size) else none

def tables (f : CodeFamily) : List CodeTable := f.sizes.map f.tableAt

/-- The names of the tables. -/
def names (f : CodeFamily) : List String := f.sizes.map (CodeTable.nameOf f.params)

theorem mem_sizes {f : CodeFamily} {size : Nat} :
    size ∈ f.sizes ↔ f.firstSize ≤ size ∧ size ≤ f.lastSize := by
  have h : f.firstSize ≤ f.lastSize := f.firstSize_le
  simp only [sizes, count, List.mem_range'_1]
  omega

theorem size_tableAt {f : CodeFamily} {size : Nat} (h : size ≤ f.lastSize) :
    (f.tableAt size).size = size := by
  simp only [tableAt, CodeTable.size_build, List.length_take]
  exact Nat.min_eq_left h

theorem names_eq_map_tables (f : CodeFamily) : f.names = f.tables.map CodeTable.name := by
  simp only [names, tables, List.map_map]
  refine List.map_congr_left fun size h => ?_
  simp only [Function.comp_apply, CodeTable.name, size_tableAt (mem_sizes.1 h).2]
  rfl

end CodeFamily

end FlatXor
