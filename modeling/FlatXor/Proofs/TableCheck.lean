import FlatXor.Proofs.TableFilling

/-!
# What the check of a table finds

A table has the same relation twice, so a fault in its rows shows against its columns. The check
looks at the number of rows and at their room first. After that it asks for no position that a
row has no room for, and it accepts no rows but those that the columns make.
-/
namespace FlatXor.CodeTable

variable {p : CodeParams} {columns : List ParitySet} {table : CodeTable} {fault : RangeFault}
  {i parity : ℕ}

/-! ## Columns with a parity that the code lacks -/

/-- The parity is the first that the code lacks, in the order of the columns and ascending in
each. -/
def IsFirstMisfit (p : CodeParams) (columns : List ParitySet) (parity : ℕ) : Prop :=
  ∃ front c back, columns = front ++ c :: back ∧ (∀ d ∈ front, ∀ i, i ∈ d → i < p.parities) ∧
    parity ∈ c ∧ p.parities ≤ parity ∧ ∀ i, i ∈ c → i < parity → i < p.parities

/-- In ascending order the first member from a bound on is the least. -/
lemma find?_toList_eq_some_iff {c : ParitySet} {m : ℕ} :
    c.toList.find? (m ≤ ·) = some parity ↔
      parity ∈ c ∧ m ≤ parity ∧ ∀ i, i ∈ c → i < parity → i < m := by
  have hsorted := ParitySet.pairwise_toList c
  simp only [List.find?_eq_some_iff_append, ← ParitySet.mem_toList]
  constructor
  · rintro ⟨hle, front, back, hlist, hfront⟩
    rw [hlist] at hsorted ⊢
    have hback := (List.pairwise_cons.mp (List.pairwise_append.mp hsorted).2.1).1
    refine ⟨by simp, by simpa using hle, fun i hi hlt => ?_⟩
    obtain hi | hi := List.mem_append.mp hi
    · simpa using hfront i hi
    · obtain rfl | hi := List.mem_cons.mp hi
      · exact absurd hlt (Nat.lt_irrefl _)
      · exact absurd (hback i hi) (Nat.lt_asymm hlt)
  · rintro ⟨hmem, hle, hleast⟩
    obtain ⟨front, back, hlist⟩ := List.append_of_mem hmem
    rw [hlist] at hsorted hleast
    have hfront := (List.pairwise_append.mp hsorted).2.2
    refine ⟨by simpa using hle, front, back, hlist, fun i hi => ?_⟩
    have hlt := hleast i (List.mem_append_left _ hi) (hfront i hi parity List.mem_cons_self)
    simpa using hlt

theorem misfit?_eq_some_iff : misfit? p columns = some parity ↔ IsFirstMisfit p columns parity := by
  simp only [misfit?, List.findSome?_eq_some_iff, find?_toList_eq_some_iff, IsFirstMisfit,
    List.find?_eq_none, ParitySet.mem_toList, decide_eq_true_eq, Nat.not_le]
  constructor
  · rintro ⟨front, c, back, hcolumns, hmisfit, hfront⟩
    exact ⟨front, c, back, hcolumns, hfront, hmisfit⟩
  · rintro ⟨front, c, back, hcolumns, hfront, hmisfit⟩
    exact ⟨front, c, back, hcolumns, hmisfit, hfront⟩

theorem ofPool_eq_error_iff :
    ofPool p columns = .error fault ↔
      ∃ parity, IsFirstMisfit p columns parity ∧ fault = .row parity p.parities := by
  simp only [← misfit?_eq_some_iff, ofPool]
  cases misfit? p columns with
  | none => simp
  | some i => simp [eq_comm]

theorem ofPool_eq_ok_iff :
    ofPool p columns = .ok table ↔
      (∀ c ∈ columns, ∀ i, i ∈ c → i < p.parities) ∧ table = build p columns := by
  rw [← misfit?_eq_none_iff, ofPool]
  cases misfit? p columns with
  | none => simp [eq_comm]
  | some i => simp

/-! ## The columns in the rows -/

/-- The parities in whose rows element `i` is. -/
def columnOf (rows : List DataSet) (i : ℕ) : ParitySet :=
  .ofList ((List.finRange maxParities).filter fun parity => rows[parity.val]?.any (·.contains i))

lemma mem_columnOf {rows : List DataSet} :
    parity ∈ columnOf rows i ↔ parity < maxParities ∧ ∃ row, rows[parity]? = some row ∧ i ∈ row := by
  simp only [columnOf, ParitySet.mem_ofList, List.mem_filter, List.mem_finRange, true_and,
    Option.any_eq_true, DataSet.contains_iff]
  constructor
  · rintro ⟨q, h, rfl⟩
    exact ⟨q.isLt, h⟩
  · rintro ⟨hlt, h⟩
    exact ⟨⟨parity, hlt⟩, h, rfl⟩

/-- The columns are read back from the rows. -/
theorem map_columnOf_build (h : ∀ c ∈ columns, ∀ i, i ∈ c → i < p.parities) :
    (List.range columns.length).map (columnOf (build p columns).rows) = columns := by
  apply List.ext_getElem (by simp)
  intro j hj hj'
  rw [List.getElem_map, List.getElem_range]
  refine ParitySet.ext_mem fun q => ?_
  have hc : columns[j]? = some columns[j] := List.getElem?_eq_getElem hj'
  simp only [mem_columnOf, rows_build_eq_some_iff]
  constructor
  · rintro ⟨-, _, ⟨-, rfl⟩, hmem⟩
    obtain ⟨c, hc', hq⟩ := mem_rowOf.mp hmem
    rw [hc] at hc'
    cases hc'
    exact hq
  · intro hq
    have hlt := h _ (List.getElem_mem hj') q hq
    exact ⟨ParitySet.lt_of_mem hq, _, ⟨hlt, rfl⟩, mem_rowOf.mpr ⟨_, hc, hq⟩⟩

theorem dataPerParity_build (p : CodeParams) (columns : List ParitySet) :
    (build p columns).dataPerParity =
      (List.range p.parities).map fun q => columns.countP fun c => c.contains q := by
  simp [dataPerParity, build, Function.comp_def, size_rowOf]

/-! ## The check, with every position checked -/

/-- Where each answer is given, all of them are. -/
lemma allM_eq_ok {α ε : Type} {f : α → Except ε Bool} {g : α → Bool} {l : List α}
    (h : ∀ a ∈ l, f a = .ok (g a)) : l.allM f = .ok (l.all g) := by
  induction l with
  | nil => rfl
  | cons a l ih =>
    have hrest := ih fun b hb => h b (List.mem_cons_of_mem a hb)
    rw [List.allM, h a List.mem_cons_self, List.all_cons]
    cases g a with
    | false => rfl
    | true => exact hrest

lemma rowAgrees_eq_ok {row : DataSet} (hparity : parity < maxParities)
    (hcapacity : row.capacity = columns.length) :
    rowAgrees columns (row, parity) =
      .ok (columns.zipIdx.all fun column => column.1.contains parity == row.contains column.2) := by
  have hindex : ParityIndex.ofNat? parity = some ⟨parity, hparity⟩ := dif_pos hparity
  rw [rowAgrees, hindex]
  refine allM_eq_ok ?_
  rintro ⟨c, i⟩ hcolumn
  have hi : i < row.capacity := by
    rw [List.mem_zipIdx_iff_getElem?] at hcolumn
    rw [hcapacity]
    exact (List.getElem?_eq_some_iff.mp hcolumn).1
  have hcontains : row.containsChecked i = .ok (row.contains i) := if_pos hi
  rw [hcontains]
  rfl

/-- The check asks for no position that is out of range. -/
theorem checkConsistent_eq_ok (table : CodeTable) :
    table.checkConsistent = .ok table.isConsistent := by
  rw [checkConsistent, isConsistent]
  cases hsizes : table.sizesFit with
  | false => rfl
  | true =>
    simp only [sizesFit, Bool.and_eq_true, List.all_eq_true, beq_iff_eq] at hsizes
    obtain ⟨⟨hlength, hcapacity⟩, -⟩ := hsizes
    refine allM_eq_ok ?_
    rintro ⟨row, parity⟩ hrow
    have hrow : table.rows[parity]? = some row := List.mem_zipIdx_iff_getElem?.mp hrow
    have hparity : parity < table.params.parities :=
      hlength ▸ (List.getElem?_eq_some_iff.mp hrow).1
    exact rowAgrees_eq_ok (Nat.lt_of_lt_of_le hparity table.params.parities_le)
      (hcapacity row (List.mem_of_getElem? hrow))

/-- Rows and columns of a table are transposes of each other, and the check finds every fault in
the rows. A table is made of all pools that have only parities of the code, and the first other
parity is refused. Filling the rows element by element comes to the same. There is a row for each
parity, with room for the columns: it holds the positions of those that have the parity, and they
are counted right. The columns can be read back from the rows. With any other rows in their place
the check comes to an answer, and accepts just the rows of the table, if all columns have the
weight of the code. -/
theorem table_transposes (p : CodeParams) (columns : List ParitySet) :
    ofPool p columns = (fillRows p columns).map (fun rows => ⟨p, columns, rows⟩) ∧
    ((∃ table, ofPool p columns = .ok table) ↔ ∀ c ∈ columns, ∀ i, i ∈ c → i < p.parities) ∧
    (∀ fault, ofPool p columns = .error fault ↔
      ∃ parity, IsFirstMisfit p columns parity ∧ fault = .row parity p.parities) ∧
    ∀ table, ofPool p columns = .ok table →
      table.params = p ∧ table.columns = columns ∧ table.rows.length = p.parities ∧
      (∀ (parity : ℕ) (row : DataSet), table.rows[parity]? = some row →
        row.capacity = columns.length ∧ ∀ i, i ∈ row ↔ ∃ c, columns[i]? = some c ∧ parity ∈ c) ∧
      table.dataPerParity =
        (List.range p.parities).map (fun parity => columns.countP fun c => c.contains parity) ∧
      (List.range columns.length).map (columnOf table.rows) = columns ∧
      ∀ other : CodeTable, other.params = p → other.columns = columns →
        other.checkConsistent = .ok other.isConsistent ∧
        (other.isConsistent = true ↔ other.rows = table.rows ∧ ∀ c ∈ columns, c.size = p.weight) := by
  refine ⟨ofPool_eq_fillRows p columns, ?_, fun fault => ofPool_eq_error_iff, ?_⟩
  · simp [ofPool_eq_ok_iff]
  · intro table htable
    obtain ⟨hmembers, rfl⟩ := ofPool_eq_ok_iff.mp htable
    refine ⟨rfl, rfl, length_rows_build p columns, ?_, dataPerParity_build p columns,
      map_columnOf_build hmembers, ?_⟩
    · intro parity row hrow
      obtain ⟨-, rfl⟩ := rows_build_eq_some_iff.mp hrow
      exact ⟨capacity_rowOf columns parity, fun i => mem_rowOf⟩
    · rintro other rfl rfl
      exact ⟨checkConsistent_eq_ok other, isConsistent_iff⟩

/-- The table of 67 columns for three parities, of which the last has the parity 2. -/
def wideTable : CodeTable :=
  build ⟨3, .two, Nat.succ_pos 2, Nat.le_add_right 3 61⟩ (List.replicate 66 ⟨3⟩ ++ [⟨5⟩])

/-- The same columns, with the last but one in the row of the parity 2 as well. -/
def damagedTable : CodeTable :=
  { wideTable with rows := wideTable.rows.modify 2 (·.insert 65) }

/-- The rows have two words each. One bit too many in the second word is found, and a column
with the parities 3, 4 and 6 is refused for the first of them. -/
theorem wideTable_transposes :
    ofPool wideTable.params wideTable.columns = .ok wideTable ∧
      wideTable.rows.map (·.words.toList) =
        [[0xffffffffffffffff, 7], [0xffffffffffffffff, 3], [0, 4]] ∧
      wideTable.dataPerParity = [67, 66, 1] ∧
      (List.range 67).map (columnOf wideTable.rows) = wideTable.columns ∧
      damagedTable.checkConsistent = .ok false ∧ damagedTable.rows ≠ wideTable.rows ∧
      ofPool wideTable.params [⟨3⟩, ⟨0x58⟩] = .error (.row 3 3) := by
  have htable : ofPool wideTable.params wideTable.columns = .ok wideTable := by decide +kernel
  have hrows : damagedTable.rows ≠ wideTable.rows := by decide +kernel
  have hwords : wideTable.rows.map (·.words.toList) =
      [[0xffffffffffffffff, 7], [0xffffffffffffffff, 3], [0, 4]] := by decide +kernel
  have hcounts : (List.range 3).map (fun parity => wideTable.columns.countP fun c =>
      c.contains parity) = [67, 66, 1] := by decide +kernel
  obtain ⟨-, -, -, htransposed⟩ := table_transposes wideTable.params wideTable.columns
  obtain ⟨-, -, -, -, hsizes, hback, hcheck⟩ := htransposed wideTable htable
  obtain ⟨hanswer, hiff⟩ := hcheck damagedTable rfl rfl
  have hrejected : damagedTable.isConsistent = false := by
    rw [← Bool.not_eq_true, hiff]
    exact fun h => hrows h.1
  obtain ⟨-, -, herror, -⟩ := table_transposes wideTable.params [⟨3⟩, ⟨0x58⟩]
  rw [hrejected] at hanswer
  refine ⟨htable, hwords, hsizes.trans hcounts, hback, hanswer, hrows, ?_⟩
  have hfirst : (⟨3⟩ : ParitySet).toList = [0, 1] := by decide +kernel
  have hsecond : (⟨0x58⟩ : ParitySet).toList = [3, 4, 6] := by decide +kernel
  have hmisfit : IsFirstMisfit wideTable.params [⟨3⟩, ⟨0x58⟩] 3 := by
    refine ⟨[⟨3⟩], ⟨0x58⟩, [], rfl, ?_, by decide +kernel, by decide, ?_⟩
    · simp [← ParitySet.mem_toList, hfirst, wideTable, build]
    · simp [← ParitySet.mem_toList, hsecond]
  exact (herror _).mpr ⟨3, hmisfit, rfl⟩

end FlatXor.CodeTable
