import FlatXor.Proofs.DeclarationReader

/-!
# What the C text of a family says

The text is a list of array definitions, two for each table and two more when the index is
wanted. The names of the arrays of a table hold its three numbers between underscores, and the
entries are numbers in decimal. So the tables are read back from the text, which therefore
belongs to one family only.
-/
namespace FlatXor

/-- What the name of an array of a table holds. -/
structure ArrayTitle where
  size : ℕ
  parities : ℕ
  hammingDistance : ℕ
  kind : ArrayKind
  deriving Repr, DecidableEq

/-- The kind with the given label. -/
def ArrayKind.ofLabel? (label : List Char) : Option ArrayKind :=
  [parity, data].find? fun kind => kind.label.toList == label

/-- Reads the name of an array of a table. Other names are refused. -/
def ArrayTitle.read? (name : String) : Option ArrayTitle :=
  match name.toList.splitOn '_' with
  | [_, size, parities, distance, _, _, label, _] => do
    return ⟨← decimalNumber? size, ← decimalNumber? parities, ← decimalNumber? distance,
      ← ArrayKind.ofLabel? label⟩
  | _ => none

/-- The entries as numbers. -/
def ArrayText.numbers? (a : ArrayText) : Option (List ℕ) :=
  a.entries.mapM fun e => decimalNumber? e.toList

/-- What the C format says of a table. -/
structure TableListing where
  parityName : String
  dataName : String
  size : ℕ
  parities : ℕ
  hammingDistance : ℕ
  /-- The rows as numbers. -/
  rows : List ℕ
  /-- The columns as numbers. -/
  columns : List ℕ
  deriving Repr, DecidableEq

namespace TableListing

def ofTable (table : CodeTable) : TableListing where
  parityName := table.arrayName .parity
  dataName := table.arrayName .data
  size := table.size
  parities := table.params.parities
  hammingDistance := table.params.hammingDistance
  rows := table.rows.map DataSet.toNat
  columns := table.columns.map fun c => c.bits.toNat

/-- The table with the columns of the listing. -/
def table? (l : TableListing) : Option CodeTable :=
  match CodeParams.ofCounts l.parities (l.hammingDistance - 1) with
  | .ok p => some (.build p (l.columns.map fun n => ⟨UInt64.ofNat n⟩))
  | .error _ => none

/-- Reads the rows and the columns of a table. -/
def ofArrays? (rowArray columnArray : ArrayText) : Option TableListing := do
  let title ← ArrayTitle.read? rowArray.name
  let other ← ArrayTitle.read? columnArray.name
  let rows ← rowArray.numbers?
  let columns ← columnArray.numbers?
  if title.kind = .parity ∧ other = { title with kind := .data } then
    some ⟨rowArray.name, columnArray.name, title.size, title.parities, title.hammingDistance,
      rows, columns⟩
  else none

/-- Reads definitions two by two, up to the first two that are not those of a table. -/
def ofArrayTexts : List ArrayText → List TableListing
  | rowArray :: columnArray :: rest =>
    match ofArrays? rowArray columnArray with
    | some listing => listing :: ofArrayTexts rest
    | none => []
  | _ => []

/-- Reads the tables from a text in the C format. -/
def read? (text : List Char) : Option (List TableListing) :=
  (ArrayText.readLines? text).map ofArrayTexts

end TableListing

/-! ## The definitions of a family -/

namespace CodeTable

/-- One of the arrays of a table. -/
def arrayText (d : Declaration) (table : CodeTable) (kind : ArrayKind) : ArrayText :=
  ⟨d.keyword, table.arrayName kind, "", table.entries kind⟩

lemma toList_arrayDefinition_eq_line (d : Declaration) (table : CodeTable) (kind : ArrayKind) :
    (table.arrayDefinition d kind).toList = (table.arrayText d kind).line ++ ['\n'] := by
  rw [toList_arrayDefinition]
  simp [arrayText, ArrayText.line]

end CodeTable

namespace CodeFamily

/-- One of the arrays of the index. -/
def indexText (f : CodeFamily) (kind : ArrayKind) : ArrayText :=
  ⟨"static unsigned int *", f.indexName kind, Nat.repr (f.lastSize + 1), f.indexSlots kind⟩

lemma toList_indexDefinition_eq_line (f : CodeFamily) (kind : ArrayKind) :
    (f.indexDefinition kind).toList = (f.indexText kind).line ++ ['\n'] := by
  rw [toList_indexDefinition]
  simp [indexText, ArrayText.line]

/-- The arrays that are defined in the C text of a family. -/
def arrayTexts (f : CodeFamily) (o : OutputSettings) : List ArrayText :=
  (f.tables.flatMap fun table =>
    [table.arrayText o.declaration .parity, table.arrayText o.declaration .data]) ++
  if o.index then [f.indexText .parity, f.indexText .data] else []

/-- The definitions of the tables, two for each of them. -/
def tableTexts (f : CodeFamily) (d : Declaration) : List ArrayText :=
  f.tables.flatMap fun table => [table.arrayText d .parity, table.arrayText d .data]

lemma arrayTexts_eq_append (f : CodeFamily) (o : OutputSettings) :
    f.arrayTexts o = f.tableTexts o.declaration ++
      if o.index then [f.indexText .parity, f.indexText .data] else [] := rfl

/-- The C text of a family is the lines of its definitions. -/
theorem toList_render_of_c {f : CodeFamily} {o : OutputSettings} (h : o.format = .c) :
    (f.render o).toList = (f.arrayTexts o).flatMap fun a => a.line ++ ['\n'] := by
  rw [render, pieces_of_c h, String.toList_join, arrayTexts]
  cases o.index <;>
    simp [List.map_flatMap, List.flatMap_assoc, Piece.text,
      CodeTable.toList_arrayDefinition_eq_line, toList_indexDefinition_eq_line]

end CodeFamily

/-! ## Names -/

lemma ArrayKind.ofLabel?_label (kind : ArrayKind) : ofLabel? kind.label.toList = some kind := by
  cases kind <;> decide

@[simp] lemma underscore_not_mem_toDigits (n : ℕ) : '_' ∉ Nat.toDigits 10 n := by
  intro h
  have hdigit := Nat.isDigit_of_mem_toDigits (by decide) (by decide) h
  cases hdigit

lemma ArrayKind.underscore_not_mem_label (kind : ArrayKind) : '_' ∉ kind.label.toList := by
  cases kind <;> decide

lemma CodeTable.splitOn_arrayName (table : CodeTable) (kind : ArrayKind) :
    (table.arrayName kind).toList.splitOn '_' =
      [['g'], Nat.toDigits 10 table.size, Nat.toDigits 10 table.params.parities,
        Nat.toDigits 10 table.params.hammingDistance, ['h', 'd'], ['c', 'o', 'd', 'e'],
        kind.label.toList, ['b', 'm', 's']] := by
  refine Eq.trans (congrArg _ ?_) (List.splitOn_intercalate '_' ?_ (List.cons_ne_nil _ _))
  · simp [toList_arrayName, toList_name, List.intercalate_cons_cons]
  · simp [kind.underscore_not_mem_label]

lemma CodeFamily.splitOn_indexName (f : CodeFamily) (kind : ArrayKind) :
    (f.indexName kind).toList.splitOn '_' =
      ['h' :: 'd' :: Nat.toDigits 10 f.params.hammingDistance,
        'm' :: Nat.toDigits 10 f.params.parities, kind.label.toList] := by
  refine Eq.trans (congrArg _ ?_) (List.splitOn_intercalate '_' ?_ (List.cons_ne_nil _ _))
  · simp [toList_indexName, List.intercalate_cons_cons]
  · simp [kind.underscore_not_mem_label]

/-- The name of an array of a table is read back. -/
theorem ArrayTitle.read?_arrayName (table : CodeTable) (kind : ArrayKind) :
    read? (table.arrayName kind) =
      some ⟨table.size, table.params.parities, table.params.hammingDistance, kind⟩ := by
  rw [read?, table.splitOn_arrayName]
  simp [Json.decimalNumber?_toDigits, ArrayKind.ofLabel?_label]

/-- The name of an index is not that of an array of a table. -/
lemma ArrayTitle.read?_indexName (f : CodeFamily) (kind : ArrayKind) :
    read? (f.indexName kind) = none := by
  rw [read?, f.splitOn_indexName]

/-- The two indexes have different names. -/
lemma CodeFamily.indexName_ne (f : CodeFamily) : f.indexName .parity ≠ f.indexName .data := by
  intro h
  have hsplit := f.splitOn_indexName .parity
  rw [h, f.splitOn_indexName] at hsplit
  have hlabel : ArrayKind.data.label.toList ≠ ArrayKind.parity.label.toList := by decide
  simp [hlabel] at hsplit

/-! ## The definitions are plain -/

namespace CodeTable

lemma isWord_arrayName (table : CodeTable) (kind : ArrayKind) :
    ArrayText.IsWord (table.arrayName kind).toList := by
  have hlabel : ArrayText.IsWord kind.label.toList := by
    cases kind <;> decide
  simp [toList_arrayName, toList_name, hlabel, ArrayText.isSign]
  decide

/-- The definitions of a table are read back. -/
lemma plain_arrayText (d : Declaration) (table : CodeTable) (kind : ArrayKind) :
    (table.arrayText d kind).Plain where
  keyword := by
    have hnone : d.keyword.toList.all (!ArrayText.isSign ·) = true := by
      cases d <;> decide
    simpa [arrayText] using hnone
  name := table.isWord_arrayName kind
  length := ArrayText.isWord_nil
  entries := by
    cases kind <;> simp [arrayText, entries, DataSet.toDecimal]

end CodeTable

namespace CodeFamily

/-- The slot of a size that the family has is the name of the array of its table. -/
lemma indexSlot_of_le (f : CodeFamily) (kind : ArrayKind) {size : ℕ} (hfirst : f.firstSize ≤ size)
    (hlast : size ≤ f.lastSize) : f.indexSlot kind size = (f.tableAt size).arrayName kind := by
  have hparams : (f.tableAt size).params = f.params := rfl
  rw [indexSlot, if_neg (Nat.not_lt_of_le hfirst)]
  simp [CodeTable.arrayName, CodeTable.name, CodeTable.nameOf, size_tableAt hlast, hparams,
    String.append_assoc]

/-- A slot of the index is 0 or the name of the array of the table of its size. -/
lemma indexSlot_eq (f : CodeFamily) (kind : ArrayKind) {size : ℕ} (h : size ≤ f.lastSize) :
    f.indexSlot kind size = "0" ∨ f.indexSlot kind size = (f.tableAt size).arrayName kind := by
  by_cases hfirst : size < f.firstSize
  · exact .inl (if_pos hfirst)
  · exact .inr (f.indexSlot_of_le kind (Nat.le_of_not_lt hfirst) h)

lemma plain_indexText (f : CodeFamily) (kind : ArrayKind) : (f.indexText kind).Plain where
  keyword := by
    have hnone : "static unsigned int *".toList.all (!ArrayText.isSign ·) = true := by decide
    simpa [indexText] using hnone
  name := by
    have hlabel : ArrayText.IsWord kind.label.toList := by
      cases kind <;> decide
    simp [indexText, toList_indexName, hlabel, ArrayText.isSign]
  length := by simp [indexText]
  entries := by
    intro slot hslot
    obtain ⟨size, hsize, rfl⟩ := List.mem_map.mp hslot
    have hle : size ≤ f.lastSize := Nat.lt_succ_iff.mp (List.mem_range.mp hsize)
    obtain hzero | hname := f.indexSlot_eq kind hle
    · rw [hzero]
      decide
    · rw [hname]
      refine ⟨?_, CodeTable.isWord_arrayName _ kind⟩
      simp [CodeTable.toList_arrayName]

/-- All definitions of a family are read back. -/
lemma plain_arrayTexts (f : CodeFamily) (o : OutputSettings) : ∀ a ∈ f.arrayTexts o, a.Plain := by
  intro a ha
  obtain htable | hindex := List.mem_append.mp ha
  · obtain ⟨table, -, hpair⟩ := List.mem_flatMap.mp htable
    obtain rfl | rfl := List.mem_pair.mp hpair
    · exact table.plain_arrayText o.declaration .parity
    · exact table.plain_arrayText o.declaration .data
  · cases hwanted : o.index with
    | false => simp [hwanted] at hindex
    | true =>
      rw [hwanted, if_pos rfl, List.mem_pair] at hindex
      obtain rfl | rfl := hindex
      · exact f.plain_indexText .parity
      · exact f.plain_indexText .data

end CodeFamily

/-! ## Distinct names -/

namespace CodeFamily

/-- The titles of the arrays of the tables. -/
lemma map_read?_names (f : CodeFamily) (d : Declaration) :
    ((f.tableTexts d).map ArrayText.name).map ArrayTitle.read? = f.sizes.flatMap fun size =>
      [some ⟨size, f.params.parities, f.params.hammingDistance, .parity⟩,
        some ⟨size, f.params.parities, f.params.hammingDistance, .data⟩] := by
  rw [tableTexts, ← f.tables_map_size, List.flatMap_map, List.map_flatMap, List.map_flatMap]
  refine List.flatMap_congr fun table htable => ?_
  obtain ⟨size, -, rfl⟩ := List.mem_map.mp htable
  simp [CodeTable.arrayText, ArrayTitle.read?_arrayName, tableAt, CodeTable.build]

/-- The arrays of the tables have different names. -/
lemma nodup_tableNames (f : CodeFamily) (d : Declaration) :
    ((f.tableTexts d).map ArrayText.name).Nodup := by
  apply List.Nodup.of_map ArrayTitle.read?
  rw [f.map_read?_names, List.nodup_flatMap]
  refine ⟨fun size _ => by simp, ?_⟩
  refine List.Pairwise.imp (fun hne => ?_) (List.nodup_range' (s := f.firstSize) (n := f.count))
  simp [Function.onFun, hne.symm]

/-- All arrays that are defined in the text of a family have different names. -/
theorem nodup_arrayTexts (f : CodeFamily) (o : OutputSettings) :
    ((f.arrayTexts o).map ArrayText.name).Nodup := by
  rw [arrayTexts_eq_append, List.map_append]
  refine List.Nodup.append (f.nodup_tableNames _) ?_ ?_
  · split_ifs
    · simpa [indexText] using f.indexName_ne
    · exact List.nodup_nil
  · -- the names of the tables have titles, those of the indexes have none
    intro name htable hindex
    have htitle := List.mem_map_of_mem (f := ArrayTitle.read?) htable
    rw [f.map_read?_names] at htitle
    have hnone : ArrayTitle.read? name = none := by
      split_ifs at hindex
      · obtain rfl | rfl := List.mem_pair.mp hindex
        · exact ArrayTitle.read?_indexName f .parity
        · exact ArrayTitle.read?_indexName f .data
      · cases hindex
    rw [hnone] at htitle
    simp at htitle

end CodeFamily

/-! ## The tables -/

/-- Parameters are given back by their counts. -/
lemma CodeParams.ofCounts_parities_weight (p : CodeParams) :
    ofCounts p.parities p.weight = .ok p := by
  obtain ⟨m, t, hpos, hle⟩ := p
  cases t <;> simp [ofCounts, weight, Arity.toNat, Arity.ofCount, hpos, hle]

namespace TableListing

/-- The listing of a table that has been built gives it back. -/
lemma table?_ofTable_build (p : CodeParams) (columns : List ParitySet) :
    (ofTable (.build p columns)).table? = some (.build p columns) := by
  have hweight : (ofTable (.build p columns)).hammingDistance - 1 = p.weight := rfl
  have hcolumns : (ofTable (.build p columns)).columns.map
      (fun n => (⟨UInt64.ofNat n⟩ : ParitySet)) = columns := by
    simp [ofTable, CodeTable.build, Function.comp_def]
  have hparities : (ofTable (.build p columns)).parities = p.parities := rfl
  rw [table?, hweight, hcolumns, hparities, p.ofCounts_parities_weight]

/-- The entries of the arrays of a table are numbers. -/
lemma numbers?_arrayText (d : Declaration) (table : CodeTable) :
    (table.arrayText d .parity).numbers? = some (ofTable table).rows ∧
      (table.arrayText d .data).numbers? = some (ofTable table).columns := by
  have hnumbers : ∀ l : List ℕ, (l.map Nat.repr).mapM (fun e => decimalNumber? e.toList) = some l :=
    fun l => mapM_map_eq_some fun n _ => by rw [Nat.toList_repr, Json.decimalNumber?_toDigits]
  have hrows : table.entries .parity = (ofTable table).rows.map Nat.repr := by
    simp [CodeTable.entries, ofTable, DataSet.toDecimal]
  have hcolumns : table.entries .data = (ofTable table).columns.map Nat.repr := by
    simp [CodeTable.entries, ofTable]
  rw [ArrayText.numbers?, ArrayText.numbers?, CodeTable.arrayText, CodeTable.arrayText]
  simp only [hrows, hcolumns, hnumbers, and_self]

/-- The two arrays of a table are read as the table. -/
lemma ofArrays?_arrayText (d : Declaration) (table : CodeTable) :
    ofArrays? (table.arrayText d .parity) (table.arrayText d .data) = some (ofTable table) := by
  obtain ⟨hrows, hcolumns⟩ := numbers?_arrayText d table
  have hname : ∀ kind, ArrayTitle.read? (table.arrayText d kind).name =
      some ⟨table.size, table.params.parities, table.params.hammingDistance, kind⟩ :=
    ArrayTitle.read?_arrayName table
  simp only [ofArrays?, hrows, hcolumns, hname, Option.bind_eq_bind, Option.bind_some, and_self,
    if_true]
  rfl

/-- The tables are read off the definitions, and nothing else is. -/
theorem ofArrayTexts_arrayTexts (f : CodeFamily) (o : OutputSettings) :
    ofArrayTexts (f.arrayTexts o) = f.tables.map ofTable := by
  have hend : ofArrayTexts (if o.index then [f.indexText .parity, f.indexText .data] else []) =
      [] := by
    split_ifs
    · have hnone : ofArrays? (f.indexText .parity) (f.indexText .data) = none := by
        simp [ofArrays?, CodeFamily.indexText, ArrayTitle.read?_indexName]
      rw [ofArrayTexts, hnone]
    · rfl
  rw [CodeFamily.arrayTexts]
  induction f.tables with
  | nil => exact hend
  | cons table tables ih =>
    rw [List.flatMap_cons, List.append_assoc, List.cons_append, List.cons_append, List.nil_append,
      ofArrayTexts, ofArrays?_arrayText, List.map_cons]
    simp only [ih]

end TableListing

namespace CodeFamily

lemma map_table?_listings (f : CodeFamily) :
    (f.tables.map TableListing.ofTable).map TableListing.table? = f.tables.map some := by
  rw [List.map_map]
  refine List.map_congr_left fun table htable => ?_
  obtain ⟨size, -, rfl⟩ := List.mem_map.mp htable
  exact TableListing.table?_ofTable_build f.params _

/-- Families with the same tables have the same parameters. -/
lemma params_eq_of_tables_eq {f g : CodeFamily} (h : g.tables = f.tables) :
    g.params = f.params := by
  have hparams : ∀ e : CodeFamily, (e.tables.map CodeTable.params).head? = some e.params := by
    intro e
    simp [tables, sizes, count, List.range'_succ, tableAt, CodeTable.build]
  have heq := hparams g
  rw [h, hparams f] at heq
  exact (Option.some.inj heq).symm

/-- The C text of a family is read back. Line by line it gives the definitions of the arrays,
whose names are all different. Two by two these give the tables, in ascending size: the names of
the arrays, the three numbers in them, the rows and the columns. So families of the same text are
of the same parameters and have the same tables. -/
theorem c_text_read_back {f : CodeFamily} {o : OutputSettings} (hc : o.format = .c) :
    ArrayText.readLines? (f.render o).toList = some (f.arrayTexts o) ∧
    ((f.arrayTexts o).map ArrayText.name).Nodup ∧
    (∃ listings, TableListing.read? (f.render o).toList = some listings ∧
      listings = f.tables.map TableListing.ofTable ∧
      listings.map TableListing.size = List.range' f.firstSize f.count ∧
      listings.map TableListing.table? = f.tables.map some) ∧
    ∀ g : CodeFamily, g.render o = f.render o → g.params = f.params ∧ g.tables = f.tables := by
  have hlines : ∀ e : CodeFamily, ArrayText.readLines? (e.render o).toList =
      some (e.arrayTexts o) := by
    intro e
    rw [toList_render_of_c hc]
    exact ArrayText.readLines?_lines (e.plain_arrayTexts o)
  have hread : ∀ e : CodeFamily, TableListing.read? (e.render o).toList =
      some (e.tables.map TableListing.ofTable) := by
    intro e
    rw [TableListing.read?, hlines, Option.map_some, TableListing.ofArrayTexts_arrayTexts]
  refine ⟨hlines f, f.nodup_arrayTexts o, ⟨_, hread f, rfl, ?_, f.map_table?_listings⟩, ?_⟩
  · rw [List.map_map]
    exact f.tables_map_size
  · intro g hg
    have hlistings : g.tables.map TableListing.ofTable = f.tables.map TableListing.ofTable := by
      have heq := hread g
      rw [hg, hread f] at heq
      exact (Option.some.inj heq).symm
    have htables : g.tables = f.tables := by
      apply List.map_injective_iff.mpr (Option.some_injective CodeTable)
      rw [← map_table?_listings, ← map_table?_listings, hlistings]
    exact ⟨params_eq_of_tables_eq htables, htables⟩

end CodeFamily

namespace Search

/-- The family of four to six candidates for four parities as static arrays with their index. -/
theorem returnedFirst_c_text :
    ∃ o f settings, returnedFirst.run none = some (.ok o) ∧ f = CodeFamily.ofOutcome o ∧
      settings = ⟨.c, .static, true⟩ ∧
      (f.arrayTexts settings).map ArrayText.name =
        ["g_4_4_3_hd_code_parity_bms", "g_4_4_3_hd_code_data_bms",
          "g_5_4_3_hd_code_parity_bms", "g_5_4_3_hd_code_data_bms",
          "g_6_4_3_hd_code_parity_bms", "g_6_4_3_hd_code_data_bms",
          "hd3_m4_parity", "hd3_m4_data"] ∧
      ((f.arrayTexts settings).map ArrayText.name).Nodup ∧
      (∃ listings, TableListing.read? (f.render settings).toList = some listings ∧
        listings.map TableListing.rows = [[15, 15, 0, 0], [31, 15, 16, 0], [31, 47, 16, 32]] ∧
        listings.map TableListing.table? = f.tables.map some) ∧
      ∀ g : CodeFamily, g.render settings = f.render settings →
        g.params = f.params ∧ g.tables = f.tables := by
  have hrun : returnedFirst.run none = some (.ok (returnedFirst.after 4).outcome) := by
    decide +kernel
  have hc : (⟨.c, .static, true⟩ : OutputSettings).format = .c := rfl
  obtain ⟨-, hnodup, ⟨listings, hread, hlistings, -, htables⟩, hsame⟩ :=
    CodeFamily.c_text_read_back (f := .ofOutcome (returnedFirst.after 4).outcome) hc
  have hrows : listings.map TableListing.rows =
      [[15, 15, 0, 0], [31, 15, 16, 0], [31, 47, 16, 32]] := by
    rw [hlistings]
    decide +kernel
  refine ⟨_, _, _, hrun, rfl, rfl, ?_, hnodup, ⟨listings, hread, hrows, htables⟩, hsame⟩
  decide +kernel

end Search

end FlatXor
