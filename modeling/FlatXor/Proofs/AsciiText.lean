import FlatXor.FailureTable
import FlatXor.FamilyText
import FlatXor.Proofs.DeclarationText
import FlatXor.Proofs.RecordText

/-!
# Output is ASCII

Everything that is written consists of fixed words, decimal digits and the signs between
them, so each of its characters takes one byte, and a count of characters is a count of
bytes.
-/
namespace FlatXor

/-- Every character takes one byte. -/
def IsAscii (text : List Char) : Prop := ∀ c ∈ text, c.utf8Size = 1

instance (text : List Char) : Decidable (IsAscii text) :=
  List.decidableBAll (fun c : Char => c.utf8Size = 1) text

/-- A property of both entries of a list of two. -/
lemma forall_mem_pair {α : Type} {q : α → Prop} {a b : α} :
    (∀ c ∈ [a, b], q c) ↔ q a ∧ q b := by simp

@[simp] lemma isAscii_nil : IsAscii [] := fun _ h => absurd h List.not_mem_nil

@[simp] lemma isAscii_append {a b : List Char} : IsAscii (a ++ b) ↔ IsAscii a ∧ IsAscii b :=
  List.forall_mem_append

@[simp] lemma isAscii_cons {c : Char} {a : List Char} :
    IsAscii (c :: a) ↔ c.utf8Size = 1 ∧ IsAscii a :=
  List.forall_mem_cons

lemma isAscii_flatMap {α : Type} {l : List α} {write : α → List Char}
    (h : ∀ a ∈ l, IsAscii (write a)) : IsAscii (l.flatMap write) := by
  intro c hc
  obtain ⟨a, ha, hc⟩ := List.mem_flatMap.mp hc
  exact h a ha c hc

lemma isAscii_intercalate (sep : List Char) {α : Type} {l : List α} {write : α → List Char}
    (hsep : IsAscii sep) (h : ∀ a ∈ l, IsAscii (write a)) :
    IsAscii (sep.intercalate (l.map write)) := by
  intro c hc
  obtain hc | ⟨text, htext, hc⟩ := mem_of_mem_intercalate hc
  · exact hsep c hc
  · obtain ⟨a, ha, rfl⟩ := List.mem_map.mp htext
    exact h a ha c hc

@[simp] lemma isAscii_toDigits (n : ℕ) : IsAscii (Nat.toDigits 10 n) := by
  intro c hc
  have hdigit := Nat.isDigit_of_mem_toDigits (by decide) (by decide) hc
  rw [Char.isDigit_iff_toNat] at hdigit
  rw [Char.utf8Size_eq_one_iff, UInt32.le_iff_toNat_le]
  exact Nat.le_trans hdigit.2 (by decide)

namespace Json

lemma isAscii_escape {c : Char} (hc : c.utf8Size = 1) : IsAscii (escape c) := by
  unfold escape
  split
  case h_8 =>
    split
    · next hcontrol =>
      have hdigits : ∀ n < 16, IsAscii ['\\', 'u', '0', '0', hexDigits.getD n '0'] := by decide
      have hlt : c.toNat < 32 := by
        rw [Char.lt_def, UInt32.lt_iff_toNat_lt] at hcontrol
        exact hcontrol
      have hhigh := hdigits (c.toNat / 16) (by omega)
      have hlow := hdigits (c.toNat % 16) (by omega)
      simp_all
    · simpa using hc
  all_goals decide

lemma isAscii_encode {s : String} (hs : IsAscii s.toList) : IsAscii (encode s).toList := by
  rw [toList_encode, isAscii_cons, isAscii_append]
  exact ⟨by decide, isAscii_flatMap fun c hc => isAscii_escape (hs c hc), by decide⟩

end Json

/-! ## Declarations -/

lemma isAscii_braced {items : List String} (h : ∀ item ∈ items, IsAscii item.toList) :
    IsAscii (braced items).toList := by
  have hitems := isAscii_intercalate [',', ' '] (by decide) h
  rw [toList_braced, isAscii_cons, isAscii_cons, isAscii_append]
  exact ⟨by decide, by decide, hitems, by decide⟩

lemma ArrayKind.isAscii_label (kind : ArrayKind) : IsAscii kind.label.toList := by
  cases kind <;> decide

lemma Declaration.isAscii_keyword (d : Declaration) : IsAscii d.keyword.toList := by
  cases d <;> decide

namespace CodeTable

lemma isAscii_name (table : CodeTable) : IsAscii table.name.toList := by
  have hline : '_'.utf8Size = 1 := by decide
  simp [toList_name, hline]

lemma isAscii_entries (table : CodeTable) (kind : ArrayKind) :
    ∀ item ∈ table.entries kind, IsAscii item.toList := by
  cases kind <;> simp [entries, DataSet.toDecimal]

lemma isAscii_arrayDefinition (d : Declaration) (table : CodeTable) (kind : ArrayKind) :
    IsAscii (table.arrayDefinition d kind).toList := by
  have hblank : ' '.utf8Size = 1 := by decide
  have hname : IsAscii (table.arrayName kind).toList := by
    rw [toList_arrayName]
    simp only [isAscii_append]
    exact ⟨by decide, table.isAscii_name, by decide, kind.isAscii_label, by decide⟩
  have hbody := isAscii_braced (table.isAscii_entries kind)
  rw [toList_arrayDefinition]
  simp only [isAscii_append, isAscii_cons]
  exact ⟨d.isAscii_keyword, hblank, hname, by decide, hbody, by decide⟩

end CodeTable

namespace CodeFamily

lemma isAscii_indexSlots (f : CodeFamily) (kind : ArrayKind) :
    ∀ item ∈ f.indexSlots kind, IsAscii item.toList := by
  intro item hitem
  obtain ⟨size, -, rfl⟩ := List.mem_map.mp hitem
  have hlabel := kind.isAscii_label
  unfold indexSlot
  split_ifs
  · decide
  · have hwords : IsAscii "g_".toList ∧ IsAscii "_".toList ∧ IsAscii "_hd_code_".toList ∧
        IsAscii "_bms".toList := by
      decide
    simp only [toString_text, Nat.toString_eq_repr, String.toList_append, Nat.toList_repr,
      isAscii_append, isAscii_toDigits, hlabel, hwords, and_self]

lemma isAscii_indexDefinition (f : CodeFamily) (kind : ArrayKind) :
    IsAscii (f.indexDefinition kind).toList := by
  have hsign : '_'.utf8Size = 1 ∧ '['.utf8Size = 1 ∧ ' '.utf8Size = 1 := by decide
  have hbody := isAscii_braced (f.isAscii_indexSlots kind)
  have hname : IsAscii (f.indexName kind).toList := by
    rw [toList_indexName]
    simp only [isAscii_append, isAscii_cons, isAscii_toDigits, kind.isAscii_label, hsign]
    decide
  rw [toList_indexDefinition]
  simp only [isAscii_append, isAscii_cons, isAscii_toDigits, hname, hbody, hsign]
  decide

end CodeFamily

/-! ## Records -/

namespace TableRecord

lemma isAscii_jsonArray {items : List String} (h : ∀ item ∈ items, IsAscii item.toList) :
    IsAscii (jsonArray items).toList := by
  have hitems := isAscii_intercalate [','] (by decide) h
  rw [toList_jsonArray, isAscii_cons, isAscii_append]
  exact ⟨by decide, hitems, by decide⟩

lemma isAscii_value (table : CodeTable) (key : Key) :
    IsAscii ((ofTable table).value key).toList := by
  cases key with
  | name => exact Json.isAscii_encode table.isAscii_name
  | size | parities | hammingDistance => simp [value]
  | columns =>
    apply isAscii_jsonArray
    simp
  | rows =>
    apply isAscii_jsonArray
    intro item hitem
    obtain ⟨row, hrow, rfl⟩ := List.mem_map.mp hitem
    obtain ⟨s, -, rfl⟩ := List.mem_map.mp hrow
    apply Json.isAscii_encode
    simp [DataSet.toDecimal]

lemma isAscii_render (table : CodeTable) : IsAscii (ofTable table).render.toList := by
  have hmember : ∀ key ∈ Key.all, IsAscii ((ofTable table).member key) := by
    intro key _
    have hlabel : IsAscii key.label.toList := by
      cases key <;> decide
    rw [member, isAscii_append, isAscii_cons]
    exact ⟨Json.isAscii_encode hlabel, by decide, isAscii_value table key⟩
  have hmembers := isAscii_intercalate [','] (by decide) hmember
  rw [toList_render, isAscii_cons, isAscii_append]
  exact ⟨by decide, hmembers, by decide⟩

end TableRecord

/-- The output for a family is ASCII. -/
theorem CodeFamily.isAscii_render (f : CodeFamily) (o : OutputSettings) :
    IsAscii (f.render o).toList := by
  have hpieces : ∀ piece ∈ f.pieces o, IsAscii piece.text.toList := by
    cases hformat : o.format with
    | c =>
      rw [pieces_of_c hformat]
      refine List.forall_mem_append.mpr ⟨List.forall_mem_flatMap.mpr fun table _ => ?_, ?_⟩
      · exact forall_mem_pair.mpr ⟨table.isAscii_arrayDefinition o.declaration .parity,
          table.isAscii_arrayDefinition o.declaration .data⟩
      · split_ifs
        · exact forall_mem_pair.mpr
            ⟨f.isAscii_indexDefinition .parity, f.isAscii_indexDefinition .data⟩
        · exact List.forall_mem_nil _
    | json =>
      have hline : IsAscii "\n".toList := by decide
      rw [pieces_of_json hformat]
      refine List.forall_mem_flatMap.mpr fun table _ => ?_
      exact forall_mem_pair.mpr ⟨TableRecord.isAscii_render table, hline⟩
  rw [render, String.toList_join, List.flatMap_map]
  exact isAscii_flatMap hpieces

/-! ## Failure tables -/

namespace FailureTable

lemma isAscii_tightlyBraced {items : List String} (h : ∀ item ∈ items, IsAscii item.toList) :
    IsAscii (tightlyBraced items).toList := by
  have hitems := isAscii_intercalate [',', ' '] (by decide) h
  rw [tightlyBraced, String.toList_append, String.toList_append, String.toList_intercalate]
  simp only [isAscii_append]
  exact ⟨⟨by decide, hitems⟩, by decide⟩

lemma isAscii_toString (i : Int) : IsAscii (toString i).toList := by
  cases i with
  | ofNat n =>
    show IsAscii (Nat.repr n).toList
    simp
  | negSucc n =>
    show IsAscii ("-" ++ Nat.repr (n + 1)).toList
    rw [String.toList_append, isAscii_append, Nat.toList_repr]
    exact ⟨by decide, isAscii_toDigits _⟩

lemma isAscii_countName (t : FailureTable) : IsAscii t.countName.toList := by
  simp only [countName, toString_text, Nat.toString_eq_repr, String.toList_append, Nat.toList_repr,
    isAscii_append, isAscii_toDigits]
  decide

lemma isAscii_arrayName (t : FailureTable) : IsAscii t.arrayName.toList := by
  -- the equation of `arrayName` is costly: to state it Lean computes with the digits of a sum
  delta arrayName
  simp only [toString_text, Nat.toString_eq_repr, String.toList_append, Nat.toList_repr,
    isAscii_append, isAscii_toDigits]
  decide

lemma isAscii_countDefinition (t : FailureTable) : IsAscii t.countDefinition.toList := by
  simp only [countDefinition, toString_text, Nat.toString_eq_repr, String.toList_append,
    Nat.toList_repr, isAscii_append, isAscii_toDigits, t.isAscii_countName]
  decide

lemma isAscii_arrayDefinition (t : FailureTable) : IsAscii t.arrayDefinition.toList := by
  have hrows : IsAscii (tightlyBraced (t.rows.map renderRow)).toList := by
    apply isAscii_tightlyBraced
    intro item hitem
    obtain ⟨row, -, rfl⟩ := List.mem_map.mp hitem
    apply isAscii_tightlyBraced
    intro text htext
    obtain ⟨i, -, rfl⟩ := List.mem_map.mp htext
    exact isAscii_toString i
  have hwidth : IsAscii (toString failureWidth).toList := by decide
  delta arrayDefinition
  generalize toString failureWidth = width at hwidth ⊢
  simp only [toString_text, String.toList_append, isAscii_append, t.isAscii_arrayName,
    t.isAscii_countName, hwidth, hrows]
  decide

/-- The output for a failure table is ASCII. -/
theorem isAscii_render (t : FailureTable) : IsAscii t.render.toList := by
  rw [render, String.toList_join, List.flatMap_map]
  exact isAscii_flatMap
    (forall_mem_pair.mpr ⟨t.isAscii_countDefinition, t.isAscii_arrayDefinition⟩)

end FailureTable

end FlatXor
