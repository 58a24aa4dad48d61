import FlatXor.CodeParams
import FlatXor.DataSet

/-!
# The two views of a code

A code says which data elements feed which parities. A table holds that relation
twice: by columns, the parities that each data element feeds, and by rows, the
data elements that feed each parity. The rows are the transpose of the columns. Row
by row they are a matter of membership. They are also filled element by element, and
compared with the columns, with every index checked against its range.
-/
namespace FlatXor

structure CodeTable where
  params : CodeParams
  /-- The parities of each data element. -/
  columns : List ParitySet
  /-- The data elements of each parity. -/
  rows : List DataSet
  deriving DecidableEq

namespace CodeTable

/-- Adds to a row the elements that feed `parity`, the first column being element `i`. -/
def fillRow (parity : Nat) : List ParitySet → Nat → DataSet → DataSet
  | [], _, row => row
  | c :: columns, i, row =>
    fillRow parity columns (i + 1) (if c.contains parity then row.insert i else row)

/-- The data elements that feed `parity`. -/
def rowOf (columns : List ParitySet) (parity : Nat) : DataSet :=
  fillRow parity columns 0 (.empty columns.length)

/-- The table of the code with the given columns. Parities that the code lacks are
left out of the rows. -/
def build (p : CodeParams) (columns : List ParitySet) : CodeTable :=
  ⟨p, columns, (List.range p.parities).map (rowOf columns)⟩

/-- The first parity that the code lacks, in the order of the columns and
ascending in each column. -/
def misfit? (p : CodeParams) (columns : List ParitySet) : Option Nat :=
  columns.findSome? fun c => c.toList.find? (p.parities ≤ ·)

/-- The table of the code with the given columns, refused when a column has a
parity that the code lacks. -/
def ofPool (p : CodeParams) (columns : List ParitySet) : Except RangeFault CodeTable :=
  match misfit? p columns with
  | some i => .error (.row i p.parities)
  | none => .ok (build p columns)

/-- Adds element `i` to the row of a parity, which is looked up. -/
def addToRow (i : Nat) (rows : List DataSet) (parity : Nat) : Except RangeFault (List DataSet) :=
  match rows[parity]? with
  | none => .error (.row parity rows.length)
  | some row =>
    match row.insertChecked i with
    | .ok row => .ok (rows.set parity row)
    | .error fault => .error fault

/-- Adds an element to the rows of all its parities. -/
def addColumn (rows : List DataSet) (column : ParitySet × Nat) : Except RangeFault (List DataSet) :=
  column.1.toList.foldlM (addToRow column.2) rows

/-- The rows for the given columns, filled column by column. -/
def fillRows (p : CodeParams) (columns : List ParitySet) : Except RangeFault (List DataSet) :=
  columns.zipIdx.foldlM addColumn (List.replicate p.parities (.empty columns.length))

/-- The number of data elements. -/
def size (table : CodeTable) : Nat := table.columns.length

/-- The name of the table with `size` data elements. -/
def nameOf (p : CodeParams) (size : Nat) : String :=
  s!"{size}_{p.parities}_{p.hammingDistance}"

def name (table : CodeTable) : String := nameOf table.params table.size

/-- The number of data elements that feed each parity. -/
def dataPerParity (table : CodeTable) : List Nat := table.rows.map DataSet.size

/-- Do columns and rows hold the same relation? -/
def viewsAgree (table : CodeTable) : Bool :=
  table.rows.zipIdx.all fun (row, parity) =>
    table.columns.zipIdx.all fun (c, i) => c.contains parity == row.contains i

/-- Is there a row for each parity, with room for the data elements and no more,
and does each element feed as many parities as the arity says? -/
def sizesFit (table : CodeTable) : Bool :=
  table.rows.length == table.params.parities &&
    table.rows.all (fun row => row.capacity == table.size) &&
    table.columns.all (fun c => c.size == table.params.weight)

/-- Do the sizes fit and the views agree? -/
def isConsistent (table : CodeTable) : Bool := table.sizesFit && table.viewsAgree

/-- Does the row of a parity agree with the columns, asked for each of their positions? -/
def rowAgrees (columns : List ParitySet) (row : DataSet × Nat) : Except RangeFault Bool :=
  match ParityIndex.ofNat? row.2 with
  | none => .ok false
  | some parity =>
    columns.zipIdx.allM fun column =>
      (row.1.containsChecked column.2).map (column.1.contains parity.val == ·)

/-- The check `isConsistent`, refused where it asks a row for a position out of its range. -/
def checkConsistent (table : CodeTable) : Except RangeFault Bool :=
  if table.sizesFit then table.rows.zipIdx.allM (rowAgrees table.columns) else .ok false

@[simp] theorem capacity_fillRow (parity : Nat) (columns : List ParitySet) (i : Nat)
    (row : DataSet) : (fillRow parity columns i row).capacity = row.capacity := by
  induction columns generalizing i row with
  | nil => rfl
  | cons c columns ih =>
    rw [fillRow, ih]
    split
    · exact DataSet.capacity_insert row i
    · rfl

@[simp] theorem capacity_rowOf (columns : List ParitySet) (parity : Nat) :
    (rowOf columns parity).capacity = columns.length := capacity_fillRow ..

theorem mem_fillRow {parity i j : Nat} {columns : List ParitySet} {row : DataSet}
    (h : i + columns.length ≤ row.capacity) :
    j ∈ fillRow parity columns i row ↔
      j ∈ row ∨ ∃ k c, columns[k]? = some c ∧ j = i + k ∧ parity ∈ c := by
  induction columns generalizing i row with
  | nil => simp [fillRow]
  | cons c columns ih =>
    rw [List.length_cons] at h
    have hrow : ∀ r : DataSet, r.capacity = row.capacity → i + 1 + columns.length ≤ r.capacity :=
      fun r hr => by omega
    have hstep : (∃ k d, (c :: columns)[k]? = some d ∧ j = i + k ∧ parity ∈ d) ↔
        (j = i ∧ parity ∈ c) ∨ ∃ k d, columns[k]? = some d ∧ j = i + 1 + k ∧ parity ∈ d := by
      constructor
      · rintro ⟨k, d, hk, hj, hd⟩
        cases k with
        | zero => exact .inl ⟨hj, by simp_all⟩
        | succ k => exact .inr ⟨k, d, hk, by omega, hd⟩
      · rintro (⟨hj, hc⟩ | ⟨k, d, hk, hj, hd⟩)
        · exact ⟨0, c, rfl, hj, hc⟩
        · exact ⟨k + 1, d, hk, by omega, hd⟩
    rw [fillRow, hstep]
    by_cases hc : parity ∈ c
    · rw [if_pos (by simpa [ParitySet.contains] using hc),
        ih (hrow _ (DataSet.capacity_insert row i)), DataSet.mem_insert]
      have hi : i < row.capacity := by omega
      simp only [hc, hi, and_true]
      rw [or_comm (a := j = i), or_assoc]
    · rw [if_neg (by simpa [ParitySet.contains] using hc), ih (hrow row rfl)]
      simp only [hc, and_false, false_or]

/-- The row holds the positions of the columns that have the parity. -/
theorem mem_rowOf {columns : List ParitySet} {parity i : Nat} :
    i ∈ rowOf columns parity ↔ ∃ c, columns[i]? = some c ∧ parity ∈ c := by
  rw [rowOf, mem_fillRow (by simp)]
  constructor
  · rintro (h | ⟨k, c, hk, rfl, hc⟩)
    · simp at h
    · exact ⟨c, by simpa using hk, hc⟩
  · rintro ⟨c, hi, hc⟩
    exact .inr ⟨i, c, hi, by simp, hc⟩

@[simp] theorem length_rows_build (p : CodeParams) (columns : List ParitySet) :
    (build p columns).rows.length = p.parities := by simp [build]

@[simp] theorem size_build (p : CodeParams) (columns : List ParitySet) :
    (build p columns).size = columns.length := rfl

end CodeTable

end FlatXor
