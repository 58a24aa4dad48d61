import FlatXor.Proofs.TableRows

/-!
# How the rows of a table are filled

The rows start out empty, with room for as many elements as there are columns. The columns are
then gone through one after the other, and the position of a column is added to the row of each
of its parities. Every row is looked up and every position is checked against the room for it.
Only the lookup of a row can fail, at the first parity that the code lacks. Otherwise the rows
that result are those of the table, each of which is the work of a single parity.
-/
namespace FlatXor.CodeTable

variable {m i parity : ℕ} {row : ℕ → DataSet}

lemma set_map_range (m parity : ℕ) (row : ℕ → DataSet) (d : DataSet) :
    ((List.range m).map row).set parity d = (List.range m).map (Function.update row parity d) := by
  apply List.ext_getElem (by simp)
  intro j hj _
  rw [List.getElem_set, List.getElem_map, List.getElem_map, List.getElem_range]
  by_cases hparity : parity = j
  · rw [if_pos hparity, hparity, Function.update_self]
  · rw [if_neg hparity, Function.update_of_ne (Ne.symm hparity)]

lemma addToRow_of_le (h : m ≤ parity) :
    addToRow i ((List.range m).map row) parity = .error (.row parity m) := by
  have hnone : ((List.range m).map row)[parity]? = none := by
    rw [List.getElem?_eq_none_iff, List.length_map, List.length_range]
    exact h
  rw [addToRow, hnone, List.length_map, List.length_range]

lemma addToRow_of_lt (h : parity < m) (hroom : i < (row parity).capacity) :
    addToRow i ((List.range m).map row) parity =
      .ok ((List.range m).map (Function.update row parity ((row parity).insert i))) := by
  have hsome : ((List.range m).map row)[parity]? = some (row parity) := by simp [h]
  have hinsert : (row parity).insertChecked i = .ok ((row parity).insert i) := if_pos hroom
  simp only [addToRow, hsome, hinsert, set_map_range]

/-- The rows of the members gain the element, and the first member without a row is refused. -/
theorem foldlM_addToRow {members : List ℕ} (hnodup : members.Nodup)
    (hroom : ∀ q < m, i < (row q).capacity) :
    members.foldlM (addToRow i) ((List.range m).map row) =
      match members.find? (m ≤ ·) with
      | some q => .error (.row q m)
      | none => .ok ((List.range m).map fun q => if q ∈ members then (row q).insert i else row q) := by
  induction members generalizing row with
  | nil => simp [pure, Except.pure]
  | cons q members ih =>
    obtain ⟨hq, hnodup⟩ := List.nodup_cons.mp hnodup
    rw [List.foldlM_cons, List.find?_cons]
    by_cases hle : m ≤ q
    · rw [addToRow_of_le hle]
      simp only [hle, decide_true]
      rfl
    · have hlt := Nat.lt_of_not_le hle
      have hroom' : ∀ q' < m, i < (Function.update row q ((row q).insert i) q').capacity := by
        intro q' hq'
        by_cases hsame : q' = q
        · rw [hsame, Function.update_self, DataSet.capacity_insert]
          exact hroom q hlt
        · rw [Function.update_of_ne hsame]
          exact hroom q' hq'
      have hrows : ∀ q' ∈ List.range m,
          (if q' ∈ members then (Function.update row q ((row q).insert i) q').insert i
            else Function.update row q ((row q).insert i) q') =
          if q' ∈ q :: members then (row q').insert i else row q' := by
        intro q' _
        by_cases hsame : q' = q
        · subst hsame
          simp [hq]
        · simp [hsame]
      rw [addToRow_of_lt hlt (hroom q hlt)]
      simp only [hle, decide_false]
      refine (ih hnodup hroom').trans ?_
      rw [List.map_congr_left hrows]

/-- The rows are filled parity by parity, and the first parity without a row is refused. -/
theorem foldlM_addColumn {columns : List ParitySet}
    (hroom : ∀ q < m, i + columns.length ≤ (row q).capacity) :
    (columns.zipIdx i).foldlM addColumn ((List.range m).map row) =
      match columns.findSome? fun c => c.toList.find? (m ≤ ·) with
      | some q => .error (.row q m)
      | none => .ok ((List.range m).map fun q => fillRow q columns i (row q)) := by
  induction columns generalizing i row with
  | nil => rfl
  | cons c columns ih =>
    have hlt : ∀ q < m, i < (row q).capacity := by
      intro q hq
      have := hroom q hq
      rw [List.length_cons] at this
      omega
    have hnodup : c.toList.Nodup := (ParitySet.pairwise_toList c).imp Nat.ne_of_lt
    have hcolumn := foldlM_addToRow hnodup hlt
    rw [List.zipIdx_cons, List.foldlM_cons, addColumn, hcolumn, List.findSome?_cons]
    cases c.toList.find? (m ≤ ·) with
    | some q => rfl
    | none =>
      refine (ih ?_).trans ?_
      · intro q hq
        have := hroom q hq
        rw [List.length_cons] at this
        split_ifs <;> simp <;> omega
      · simp only [fillRow, ParitySet.mem_toList, ParitySet.contains_iff]

/-- Filling the rows element by element gives the table, or the fault that refuses it. -/
theorem ofPool_eq_fillRows (p : CodeParams) (columns : List ParitySet) :
    ofPool p columns = (fillRows p columns).map fun rows => ⟨p, columns, rows⟩ := by
  have hempty : List.replicate p.parities (DataSet.empty columns.length) =
      (List.range p.parities).map fun _ => DataSet.empty columns.length := by
    simp
  have hroom : ∀ q < p.parities, 0 + columns.length ≤ (DataSet.empty columns.length).capacity := by
    simp
  have hfill := foldlM_addColumn hroom
  rw [fillRows, hempty, hfill, ofPool, misfit?]
  cases columns.findSome? fun c => c.toList.find? (p.parities ≤ ·) with
  | some q => rfl
  | none => rfl

end FlatXor.CodeTable
