import FlatXor.Proofs.FamilyListing

/-!
# The index points at the tables

An index has a slot for each size up to the largest. As long as the family has no table of the
size the slot is 0, and from then on the slots are the names of the arrays of the tables, in
their order. So the slots of both indexes together are zeros and the names that the definitions
before them have, each of them once.
-/
namespace FlatXor

namespace CodeFamily

variable {f : CodeFamily} {d : Declaration} {kind : ArrayKind} {size : ℕ}

/-- An array of pointers to the arrays of one kind, of which the definitions are given. -/
structure PointsTo (f : CodeFamily) (declared : List ArrayText) (kind : ArrayKind)
    (index : ArrayText) : Prop where
  name : index.name = f.indexName kind
  length : index.length = Nat.repr (f.lastSize + 1)
  slots : index.entries.length = f.lastSize + 1
  unused : ∀ size < f.firstSize, index.entries[size]? = some "0"
  /-- The slot of a code is the name under which the array of its table is defined. -/
  used : ∀ size, f.firstSize ≤ size → size ≤ f.lastSize → ∃ table a, f.table? size = some table ∧
    a ∈ declared ∧ a.name = table.arrayName kind ∧ a.entries = table.entries kind ∧
      index.entries[size]? = some a.name

lemma arrayText_mem_tableTexts (hfirst : f.firstSize ≤ size) (hlast : size ≤ f.lastSize) :
    (f.tableAt size).arrayText d kind ∈ f.tableTexts d := by
  have htable : f.tableAt size ∈ f.tables := List.mem_map_of_mem (mem_sizes.mpr ⟨hfirst, hlast⟩)
  refine List.mem_flatMap.mpr ⟨f.tableAt size, htable, ?_⟩
  cases kind <;> simp

lemma getElem?_indexSlots (h : size ≤ f.lastSize) :
    (f.indexSlots kind)[size]? = some (f.indexSlot kind size) := by
  rw [indexSlots, List.getElem?_map, List.getElem?_range (Nat.lt_succ_of_le h), Option.map_some]

theorem pointsTo_indexText (f : CodeFamily) (d : Declaration) (kind : ArrayKind) :
    f.PointsTo (f.tableTexts d) kind (f.indexText kind) where
  name := rfl
  length := rfl
  slots := by simp [indexText, indexSlots]
  unused := by
    intro size hsize
    have hlast : size ≤ f.lastSize := Nat.le_of_lt (Nat.lt_of_lt_of_le hsize f.firstSize_le)
    rw [indexText, getElem?_indexSlots hlast, indexSlot, if_pos hsize]
  used := by
    intro size hfirst hlast
    refine ⟨f.tableAt size, (f.tableAt size).arrayText d kind,
      table?_eq_some_iff.mpr ⟨hfirst, hlast, rfl⟩, arrayText_mem_tableTexts hfirst hlast,
      rfl, rfl, ?_⟩
    rw [indexText, getElem?_indexSlots hlast, f.indexSlot_of_le kind hfirst hlast]
    rfl

/-! ## All slots -/

/-- The slots are zeros, followed by the names of the arrays. -/
theorem indexSlots_eq_append (f : CodeFamily) (kind : ArrayKind) :
    f.indexSlots kind =
      List.replicate f.firstSize "0" ++ f.tables.map fun table => table.arrayName kind := by
  have hcount : f.firstSize + f.count = f.lastSize + 1 := by
    have : f.firstSize ≤ f.lastSize := f.firstSize_le
    rw [count]
    omega
  have hsizes : List.range (f.lastSize + 1) = List.range f.firstSize ++ f.sizes := by
    rw [List.range_eq_range', List.range_eq_range', ← hcount, ← List.range'_append_1, Nat.zero_add]
    rfl
  rw [indexSlots, hsizes, List.map_append, tables, List.map_map]
  congr 1
  · rw [List.eq_replicate_iff]
    refine ⟨by simp, fun slot hslot => ?_⟩
    obtain ⟨size, hsize, rfl⟩ := List.mem_map.mp hslot
    exact if_pos (List.mem_range.mp hsize)
  · refine List.map_congr_left fun size hsize => ?_
    exact f.indexSlot_of_le kind (mem_sizes.mp hsize).1 (mem_sizes.mp hsize).2

/-- The names of the tables' arrays, sorted by their kind. -/
lemma perm_map_name_tableTexts (f : CodeFamily) (d : Declaration) :
    ((f.tables.map fun table => table.arrayName .parity) ++
      f.tables.map fun table => table.arrayName .data).Perm
        ((f.tableTexts d).map ArrayText.name) := by
  have hdata : (f.tables.map fun table => table.arrayName .data) =
      f.tables.flatMap fun table => [table.arrayName .data] :=
    (List.flatMap_pure_eq_map _ f.tables).symm
  rw [hdata, tableTexts, List.map_flatMap]
  exact List.map_append_flatMap_perm _ _ _

lemma name_ne_zero {a : ArrayText} (ha : a ∈ f.tableTexts d) : a.name ≠ "0" := by
  intro hzero
  obtain ⟨table, -, hpair⟩ := List.mem_flatMap.mp ha
  have htitle : (ArrayTitle.read? a.name).isSome = true := by
    obtain rfl | rfl := List.mem_pair.mp hpair <;>
      simp [CodeTable.arrayText, ArrayTitle.read?_arrayName]
  rw [hzero] at htitle
  revert htitle
  decide

/-- A name that is not 0 occurs in the slots as often as among the definitions. -/
lemma count_indexSlots (d : Declaration) {name : String} (h : name ≠ "0") :
    (f.indexSlots .parity ++ f.indexSlots .data).count name =
      ((f.tableTexts d).map ArrayText.name).count name := by
  have hzeros : (List.replicate f.firstSize "0").count name = 0 :=
    List.count_eq_zero.mpr fun hmem => h (List.eq_of_mem_replicate hmem)
  rw [← (f.perm_map_name_tableTexts d).count_eq, List.count_append, List.count_append,
    indexSlots_eq_append, indexSlots_eq_append, List.count_append, List.count_append, hzeros,
    Nat.zero_add, Nat.zero_add]

/-- The indexes of a family in the C text, when they are wanted. Each has a slot for every size
up to the largest, 0 for those without a code and else the name under which the array of the
code of that size is defined before. Every array of a table is in one slot, and every slot that
is not 0 has the name of such an array. -/
theorem indexes_point_to_tables {o : OutputSettings} (hc : o.format = .c)
    (hindex : o.index = true) :
    ∃ parityIndex dataIndex,
      ArrayText.readLines? (f.render o).toList =
        some (f.tableTexts o.declaration ++ [parityIndex, dataIndex]) ∧
      f.PointsTo (f.tableTexts o.declaration) .parity parityIndex ∧
      f.PointsTo (f.tableTexts o.declaration) .data dataIndex ∧
      (∀ a ∈ f.tableTexts o.declaration, a.name ≠ "0" ∧
        (parityIndex.entries ++ dataIndex.entries).count a.name = 1) ∧
      ∀ slot ∈ parityIndex.entries ++ dataIndex.entries, slot ≠ "0" →
        ∃ a ∈ f.tableTexts o.declaration, a.name = slot := by
  have htexts : f.arrayTexts o =
      f.tableTexts o.declaration ++ [f.indexText .parity, f.indexText .data] := by
    rw [arrayTexts_eq_append, if_pos hindex]
  refine ⟨f.indexText .parity, f.indexText .data, ?_, f.pointsTo_indexText o.declaration .parity,
    f.pointsTo_indexText o.declaration .data, ?_, ?_⟩
  · rw [toList_render_of_c hc, ArrayText.readLines?_lines (f.plain_arrayTexts o), htexts]
  · intro a ha
    have hzero := name_ne_zero ha
    refine ⟨hzero, (count_indexSlots o.declaration hzero).trans ?_⟩
    exact List.count_eq_one_of_mem (f.nodup_tableNames o.declaration) (List.mem_map_of_mem ha)
  · intro slot hslot hzero
    have hpos := List.count_pos_iff.mpr hslot
    rw [indexText, indexText, count_indexSlots o.declaration hzero] at hpos
    exact List.mem_map.mp (List.count_pos_iff.mp hpos)

end CodeFamily

namespace Search

/-- With the index of the family of four to six candidates for four parities. The last slot of
its data array names the array of the largest code. -/
theorem returnedFirst_index :
    ∃ o f settings, returnedFirst.run none = some (.ok o) ∧ f = CodeFamily.ofOutcome o ∧
      settings = ⟨.c, .static, true⟩ ∧
      ∃ parityIndex dataIndex,
        ArrayText.readLines? (f.render settings).toList =
          some (f.tableTexts .static ++ [parityIndex, dataIndex]) ∧
        f.PointsTo (f.tableTexts .static) .parity parityIndex ∧
        f.PointsTo (f.tableTexts .static) .data dataIndex ∧
        dataIndex.length = "7" ∧ dataIndex.entries[3]? = some "0" ∧
        (∃ a ∈ f.tableTexts .static, a.name = "g_6_4_3_hd_code_data_bms" ∧
          dataIndex.entries[6]? = some a.name ∧
          (parityIndex.entries ++ dataIndex.entries).count a.name = 1) ∧
        ∀ slot ∈ parityIndex.entries ++ dataIndex.entries, slot ≠ "0" →
          ∃ a ∈ f.tableTexts .static, a.name = slot := by
  have hrun : returnedFirst.run none = some (.ok (returnedFirst.after 4).outcome) := by
    decide +kernel
  have hc : (⟨.c, .static, true⟩ : OutputSettings).format = .c := rfl
  have hindex : (⟨.c, .static, true⟩ : OutputSettings).index = true := rfl
  have hfirst : (CodeFamily.ofOutcome (returnedFirst.after 4).outcome).firstSize = 4 := by
    decide +kernel
  have hlast : (CodeFamily.ofOutcome (returnedFirst.after 4).outcome).lastSize = 6 := by
    decide +kernel
  obtain ⟨parityIndex, dataIndex, hread, hparity, hdata, honce, hslots⟩ :=
    CodeFamily.indexes_point_to_tables (f := .ofOutcome (returnedFirst.after 4).outcome) hc hindex
  have hunused : dataIndex.entries[3]? = some "0" := hdata.unused 3 (by rw [hfirst]; decide)
  obtain ⟨table, a, htable, ha, hname, -, hused⟩ :=
    hdata.used 6 (by rw [hfirst]; decide) (by rw [hlast])
  have hsix : a.name = "g_6_4_3_hd_code_data_bms" := by
    obtain ⟨-, -, rfl⟩ := CodeFamily.table?_eq_some_iff.mp htable
    rw [hname]
    decide +kernel
  refine ⟨_, _, _, hrun, rfl, rfl, parityIndex, dataIndex, hread, hparity, hdata, ?_, hunused,
    ⟨a, ha, hsix, hused, (honce a ha).2⟩, hslots⟩
  rw [hdata.length, hlast]
  decide

end Search

end FlatXor
