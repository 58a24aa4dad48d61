import FlatXor.FamilyText
import FlatXor.Proofs.FamilyTables
import FlatXor.Proofs.RecordText
import FlatXor.Proofs.SinkRoom

/-!
# A family as lines of records

In the JSON format a family is one line for each of its tables, and each line is read back
as the record of its table. A record still holds the table: its columns are the masks of
the data elements, and the binary digits of the number that a row denotes in decimal are
the same relation read the other way, also where that number is wider than a word.
-/
namespace FlatXor

namespace TableRecord

variable {p : CodeParams} {columns : List ParitySet}

/-- A table with a word's number of columns has a record whose numbers are words. -/
lemma fits_ofTable_build (h : columns.length < UInt64.size) : (ofTable (.build p columns)).Fits where
  size := h
  parities := Nat.lt_of_le_of_lt p.parities_le (by decide)
  hammingDistance := by
    show p.arity.hammingDistance < UInt64.size
    cases p.arity <;> decide

/-- A row of the record denotes a number whose digits are a row of the columns' bits. -/
theorem exists_number_of_row {q : ℕ} {text : String}
    (h : (ofTable (.build p columns)).rows[q]? = some text) :
    ∃ v, decimalNumber? text.toList = some v ∧ v < 2 ^ columns.length ∧
      ∀ i w, (ofTable (.build p columns)).columns[i]? = some w →
        v.testBit i = w.toNat.testBit q := by
  obtain ⟨row, hrow, rfl⟩ : ∃ row, (CodeTable.build p columns).rows[q]? = some row ∧
      row.toDecimal = text := by
    simpa [ofTable] using h
  obtain ⟨-, rfl⟩ := CodeTable.rows_build_eq_some_iff.mp hrow
  refine ⟨(CodeTable.rowOf columns q).toNat, ?_, ?_, fun i w hw => ?_⟩
  · rw [DataSet.toDecimal, Nat.toList_repr, Json.decimalNumber?_toDigits]
  · simpa using (CodeTable.rowOf columns q).toNat_lt
  · obtain ⟨c, hc, rfl⟩ : ∃ c, columns[i]? = some c ∧ c.bits = w := by
      simpa [ofTable] using hw
    rw [Bool.eq_iff_iff, DataSet.testBit_toNat, CodeTable.mem_rowOf]
    simp [hc, ParitySet.mem_def, Mask.has]

end TableRecord

namespace CodeFamily

/-- The text of a family in the JSON format. -/
lemma toList_render_of_json {settings : OutputSettings} (f : CodeFamily)
    (h : settings.format = .json) :
    (f.render settings).toList =
      (f.tables.map fun table => (TableRecord.ofTable table).render.toList).flatMap
        (· ++ ['\n']) := by
  rw [render, pieces_of_json h, String.toList_join]
  simp [List.flatMap_map, List.map_flatMap, List.flatMap_assoc, Piece.text]

/-- A sink with room for the text of a family takes it. -/
theorem exists_write_eq_ok (f : CodeFamily) (settings : OutputSettings) {room : ℕ}
    (reason : String) (h : (f.render settings).length ≤ room) :
    ∃ sink, f.write settings (.ofRoom room reason) = (.ok (), sink) ∧
      sink.contents = f.render settings := by
  obtain ⟨sink, hwrite, hcontents⟩ := Sink.writeAll_of_length_le (s := .ofRoom room reason) h
  refine ⟨sink, ?_, ?_⟩
  · rw [write_eq_writeAll, hwrite]
  · rw [hcontents, render]
    rfl

/-- The tables have the sizes of the family, in ascending order. -/
theorem tables_map_size (f : CodeFamily) : f.tables.map CodeTable.size = f.sizes := by
  rw [tables, List.map_map]
  calc f.sizes.map (CodeTable.size ∘ f.tableAt)
      = f.sizes.map id := List.map_congr_left fun size h => size_tableAt (mem_sizes.mp h).2
    _ = f.sizes := List.map_id _

end CodeFamily

namespace Search

/-- The JSON text of the family of a search that has converged. A sink with room for the text
receives it. Split at the line ends it is one line for each table, in ascending size, and
nothing after the last line end. Each line is an object that is read back as the record of its
table. That record has a mask for each data element and a decimal number for each parity, and
they are the same relation: digit `i` of the number of parity `q` is bit `q` of the mask of
element `i`. The length of a pool is a machine word. -/
theorem json_lines_read_back {p : CodeParams} {pool : Pool} {detect : Bool} {s : Search}
    {maxSteps : Option ℕ} {o : SearchOutcome} {f : CodeFamily} {settings : OutputSettings}
    (hs : Begins p detect pool s) (hrun : s.run maxSteps = some (.ok o))
    (hf : f = CodeFamily.ofOutcome o) (hword : pool.length < UInt64.size)
    (hjson : settings.format = .json) :
    (∀ room reason, (f.render settings).length ≤ room → ∃ sink,
      f.write settings (.ofRoom room reason) = (.ok (), sink) ∧
        sink.contents = f.render settings) ∧
    (f.render settings).toList.splitOn '\n' =
      f.tables.map (fun table => (TableRecord.ofTable table).render.toList) ++ [[]] ∧
    f.tables.length = f.count ∧
    f.tables.map CodeTable.size = List.range' f.firstSize f.count ∧
    ∀ table ∈ f.tables, ∃ r, r = TableRecord.ofTable table ∧
      (∃ members, r.render.toList = '\x7b' :: (members ++ ['\x7d'])) ∧
      TableRecord.parse? r.render = some r ∧
      r.size = table.size ∧ r.columns.length = r.size ∧
      r.parities = p.parities ∧ r.rows.length = p.parities ∧
      ∀ q text, r.rows[q]? = some text → ∃ v, decimalNumber? text.toList = some v ∧
        v < 2 ^ r.size ∧ ∀ i w, r.columns[i]? = some w → v.testBit i = w.toNat.testBit q := by
  obtain ⟨hp, horder, -⟩ := restoreOrder_of_run hs hrun
  rw [← hf] at hp horder
  refine ⟨fun room reason => f.exists_write_eq_ok settings reason, ?_, ?_, f.tables_map_size, ?_⟩
  · rw [f.toList_render_of_json hjson]
    apply splitOn_lines
    intro line hline
    obtain ⟨table, -, rfl⟩ := List.mem_map.mp hline
    exact TableRecord.newline_not_mem_render _
  · simp [CodeFamily.tables, CodeFamily.sizes]
  · intro table htable
    obtain ⟨size, hsize, rfl⟩ := List.mem_map.mp htable
    have hle : size ≤ f.restoreOrder.length := (CodeFamily.mem_sizes.mp hsize).2
    have hlen : (f.restoreOrder.take size).length = size := List.length_take_of_le hle
    have hfits : (TableRecord.ofTable (f.tableAt size)).Fits := by
      apply TableRecord.fits_ofTable_build
      rw [hlen]
      exact Nat.lt_of_le_of_lt (hle.trans_eq horder.length_eq) hword
    refine ⟨_, rfl, ⟨_, TableRecord.toList_render _⟩, TableRecord.parse?_render hfits, rfl, ?_, ?_,
      ?_, ?_⟩
    · exact List.length_map ..
    · exact congrArg CodeParams.parities hp
    · simp [TableRecord.ofTable, CodeFamily.tableAt, hp]
    · intro q text htext
      exact TableRecord.exists_number_of_row htext

/-- The family of four to six candidates for four parities is three lines. In the line of five
elements the row of parity 2 is the number 16, whose only digit is that of element 4. -/
theorem returnedFirst_json_lines :
    ∃ o f, returnedFirst.run none = some (.ok o) ∧ f = CodeFamily.ofOutcome o ∧
      (f.render ⟨.json, .plain, false⟩).toList.splitOn '\n' =
        f.tables.map (fun table => (TableRecord.ofTable table).render.toList) ++ [[]] ∧
      f.tables.map CodeTable.size = [4, 5, 6] ∧
      ∃ table ∈ f.tables, ∃ r, r = TableRecord.ofTable table ∧
        TableRecord.parse? r.render = some r ∧ r.size = 5 ∧ r.rows = ["31", "15", "16", "0"] ∧
        ∃ v, decimalNumber? "16".toList = some v ∧ v < 2 ^ 5 ∧
          ∀ i w, r.columns[i]? = some w → v.testBit i = w.toNat.testBit 2 := by
  have hs : Begins fourTwo true returnedFirst.state.pool returnedFirst := .ofPool rfl
  have hrun : returnedFirst.run none = some (.ok (returnedFirst.after 4).outcome) := by
    decide +kernel
  have hword : returnedFirst.state.pool.length < UInt64.size := by decide
  have hjson : (⟨.json, .plain, false⟩ : OutputSettings).format = .json := rfl
  obtain ⟨-, hsplit, -, hsizes, hrecords⟩ := json_lines_read_back hs hrun rfl hword hjson
  have hfive : (CodeFamily.ofOutcome (returnedFirst.after 4).outcome).tableAt 5 ∈
      (CodeFamily.ofOutcome (returnedFirst.after 4).outcome).tables := by
    decide +kernel
  obtain ⟨r, hr, -, hread, hsize, -, -, -, hrows⟩ := hrecords _ hfive
  have htexts : r.rows = ["31", "15", "16", "0"] := by
    rw [hr]
    decide +kernel
  have hr5 : r.size = 5 := by
    rw [hsize]
    decide +kernel
  obtain ⟨v, hv, hlt, hbits⟩ := hrows 2 "16" (by rw [htexts]; rfl)
  rw [hr5] at hlt
  refine ⟨_, _, hrun, rfl, hsplit, ?_, _, hfive, r, hr, hread, hr5, htexts, v, hv, hlt, hbits⟩
  rw [hsizes]
  decide +kernel

end Search

end FlatXor
