import FlatXor.Proofs.BinomialWords
import FlatXor.Proofs.FailurePatterns

/-!
# Generating a failure table

The rows are counted beforehand, as a sum of binomial coefficients in 64-bit words. After that a
stream of tuples runs for each size until it ends on its own, and each tuple is written over the
first cells of a blank row. At the end the rows are counted and have to be as many as expected.
For fragments and depths in their ranges no sum overflows and both numbers agree, so that nothing
but a number out of its range is ever refused.
-/
namespace FlatXor.FailureTable

variable {t : FailureTable} {fragments depth : ℕ}

/-! ## Rows -/

lemma overwrite_replicate {pattern : List ℕ} {width : ℕ} (hwidth : pattern.length ≤ width)
    (hcell : ∀ i ∈ pattern, i < 2 ^ 31) :
    overwrite (List.replicate width (-1)) pattern =
      pattern.map Int.ofNat ++ List.replicate (width - pattern.length) (-1) := by
  induction pattern generalizing width with
  | nil => cases width <;> rfl
  | cons i pattern ih =>
    obtain ⟨width, rfl⟩ := Nat.exists_eq_add_one_of_ne_zero (Nat.ne_zero_of_lt hwidth)
    obtain ⟨hi, hothers⟩ := List.forall_mem_cons.mp hcell
    rw [List.replicate_succ, overwrite, Int32.toInt_ofNat_of_lt hi,
      ih (Nat.le_of_succ_le_succ hwidth) hothers, List.length_cons, Nat.add_sub_add_right]
    rfl

lemma overwrite_blankRow {pattern : List ℕ} (h : pattern ∈ t.patterns) :
    overwrite blankRow pattern = padded pattern := by
  refine overwrite_replicate (length_le_of_mem_patterns h) fun i hi => ?_
  obtain ⟨size, -, htuple⟩ := mem_patterns.mp h
  calc i < t.fragments := htuple.lt_bound i hi
    _ ≤ maxFragments := t.fragments_range.2
    _ < 2 ^ 31 := by decide

lemma pushRows_of_pending_eq_none {s : TupleStream} (h : s.pending = none)
    (rows : List (List Int)) : pushRows rows s = rows := by
  have hnext : s.next? = none := Option.map_eq_none_iff.mpr h
  rw [pushRows]
  split
  · rfl
  · next heq => cases hnext.symm.trans heq

lemma pushRows_of_pending {s : TupleStream} {l : List ℕ} (h : s.pending = some l)
    (rows : List (List Int)) :
    pushRows rows s =
      pushRows (rows ++ [overwrite blankRow l]) ⟨s.bound, nextTuple? s.bound l⟩ := by
  have hnext : s.next? = some (l, ⟨s.bound, nextTuple? s.bound l⟩) :=
    Option.map_eq_some_iff.mpr ⟨l, h, rfl⟩
  rw [pushRows]
  split
  · next heq => cases hnext.symm.trans heq
  · next heq =>
    cases hnext.symm.trans heq
    rfl

/-- The rows of a stream are those of its tuples, as soon as these are enough for it to end. -/
lemma pushRows_of_pending_drop {s : TupleStream} {k : ℕ} (h : (s.drop k).pending = none)
    (rows : List (List Int)) :
    pushRows rows s = rows ++ (s.take k).map (overwrite blankRow) := by
  induction k generalizing s rows with
  | zero =>
    have hended : s.pending = none := h
    rw [pushRows_of_pending_eq_none hended, TupleStream.take_zero, List.map_nil, List.append_nil]
  | succ k ih =>
    -- The stream may have ended already, before all its calls are made.
    cases hpending : s.pending with
    | none =>
      rw [pushRows_of_pending_eq_none hpending, TupleStream.take_of_pending_eq_none hpending,
        List.map_nil, List.append_nil]
    | some l =>
      rw [TupleStream.drop_succ_of_pending hpending] at h
      rw [pushRows_of_pending hpending, TupleStream.take_succ_of_pending hpending, ih h,
        List.map_cons, List.append_assoc, List.singleton_append]

/-- A stream ends by itself where its tuples are expected to end. -/
lemma pushRows_start (n size : ℕ) (rows : List (List Int)) :
    pushRows rows (.start n size) = rows ++ (tuples n size).map (overwrite blankRow) := by
  rw [tuples, Binomial.choose_eq_choose]
  exact pushRows_of_pending_drop (TupleStream.pending_drop_choose n size) rows

lemma foldl_pushRows (n : ℕ) (sizes : List ℕ) (rows : List (List Int)) :
    sizes.foldl (fun rows size => pushRows rows (.start n size)) rows =
      rows ++ (sizes.flatMap (tuples n)).map (overwrite blankRow) := by
  induction sizes generalizing rows with
  | nil => rw [List.foldl_nil, List.flatMap_nil, List.map_nil, List.append_nil]
  | cons size sizes ih =>
    rw [List.foldl_cons, ih, pushRows_start, List.flatMap_cons, List.map_append,
      List.append_assoc]

lemma foldl_pushRows_eq_rows (t : FailureTable) :
    (List.range' 1 t.depth).foldl (fun rows size => pushRows rows (.start t.fragments size)) [] =
      t.rows := by
  rw [foldl_pushRows, List.nil_append]
  exact List.map_congr_left fun pattern h => overwrite_blankRow h

/-! ## The expected number -/

/-- As long as there is room for as much as the coefficients can be, their sum is exact. -/
lemma foldlM_addCount {sizes : List ℕ} {total : ℕ} (hn : fragments ≤ 64)
    (hsizes : ∀ size ∈ sizes, size ≤ 4) (hroom : total + sizes.length * 64 ^ 4 < wordLimit) :
    sizes.foldlM (addCount fragments) total = .ok (total + (sizes.map fragments.choose).sum) := by
  induction sizes generalizing total with
  | nil => rfl
  | cons size sizes ih =>
    obtain ⟨hsize, hothers⟩ := List.forall_mem_cons.mp hsizes
    have hle := Binomial.choose_le_pow hn hsize
    rw [List.length_cons, Nat.succ_mul] at hroom
    have hadd : addCount fragments total size = .ok (total + fragments.choose size) := by
      rw [addCount, Binomial.chooseInWords_of_le hn hsize, Binomial.choose_eq_choose]
      exact addIndex_of_lt (by omega)
    have hrest : total + fragments.choose size + sizes.length * 64 ^ 4 < wordLimit := by omega
    rw [List.foldlM_cons, hadd, List.map_cons, List.sum_cons, ← Nat.add_assoc]
    exact ih hothers hrest

lemma countInWords_eq_size (t : FailureTable) :
    countInWords t.fragments t.depth = .ok t.size := by
  have hdepth : t.depth ≤ 4 := t.depth_range.2
  have hroom : 0 + (List.range' 1 t.depth).length * 64 ^ 4 < wordLimit := by
    rw [List.length_range', Nat.zero_add]
    exact Nat.lt_of_le_of_lt (Nat.mul_le_mul_right _ hdepth) (by decide)
  have hsizes : ∀ size ∈ List.range' 1 t.depth, size ≤ 4 := by
    intro size hsize
    have := List.mem_range'_1.mp hsize
    omega
  rw [countInWords, foldlM_addCount t.fragments_range.2 hsizes hroom, Nat.zero_add, size_eq_sum]

/-! ## The whole -/

lemma ofCounts_fragments (h : fragments = 0 ∨ maxFragments < fragments) (depth : ℕ) :
    ofCounts fragments depth = .error (.fragmentCountOutOfRange fragments maxFragments) :=
  dif_neg (by omega)

lemma ofCounts_depth (hf : ¬ (fragments = 0 ∨ maxFragments < fragments))
    (hd : depth = 0 ∨ failureWidth < depth) :
    ofCounts fragments depth = .error (.failureDepthOutOfRange depth failureWidth) := by
  rw [ofCounts, dif_pos (by omega), dif_neg (by omega)]

lemma ofCounts_ok (hf : ¬ (fragments = 0 ∨ maxFragments < fragments))
    (hd : ¬ (depth = 0 ∨ failureWidth < depth)) :
    ∃ t : FailureTable, ofCounts fragments depth = .ok t ∧
      t.fragments = fragments ∧ t.depth = depth := by
  have hfragments : 0 < fragments ∧ fragments ≤ maxFragments := by omega
  have hdepth : 0 < depth ∧ depth ≤ failureWidth := by omega
  exact ⟨⟨fragments, depth, hfragments, hdepth⟩,
    by rw [ofCounts, dif_pos hfragments, dif_pos hdepth], rfl, rfl⟩

/-- Nothing is refused but what is out of its range: the sum does not overflow, and there are as
many rows as expected. -/
theorem generate_eq (fragments depth : ℕ) :
    generate fragments depth = ((ofCounts fragments depth).mapError .refused).map rows := by
  by_cases hf : fragments = 0 ∨ maxFragments < fragments
  · rw [ofCounts_fragments hf, generate, if_pos hf]
    rfl
  by_cases hd : depth = 0 ∨ failureWidth < depth
  · rw [ofCounts_depth hf hd, generate, if_neg hf, if_pos hd]
    rfl
  · obtain ⟨t, ht, rfl, rfl⟩ := ofCounts_ok hf hd
    rw [ht, generate, if_neg hf, if_neg hd, countInWords_eq_size, foldl_pushRows_eq_rows]
    simp only [bind, Except.bind, Except.mapError, length_rows, ne_eq, not_true_eq_false]
    rfl

lemma generate_fragments (h : fragments = 0 ∨ maxFragments < fragments) (depth : ℕ) :
    generate fragments depth =
      .error (.refused (.fragmentCountOutOfRange fragments maxFragments)) := by
  rw [generate_eq, ofCounts_fragments h]
  rfl

lemma generate_depth (hf : ¬ (fragments = 0 ∨ maxFragments < fragments))
    (hd : depth = 0 ∨ failureWidth < depth) :
    generate fragments depth = .error (.refused (.failureDepthOutOfRange depth failureWidth)) := by
  rw [generate_eq, ofCounts_depth hf hd]
  rfl

lemma generate_ok (hf : ¬ (fragments = 0 ∨ maxFragments < fragments))
    (hd : ¬ (depth = 0 ∨ failureWidth < depth)) :
    ∃ t : FailureTable, ofCounts fragments depth = .ok t ∧ generate fragments depth = .ok t.rows ∧
      t.size = t.rows.length ∧ IsComplete fragments depth t.rows := by
  obtain ⟨t, ht, rfl, rfl⟩ := ofCounts_ok hf hd
  refine ⟨t, ht, ?_, t.length_rows.symm, t.isComplete_rows⟩
  rw [generate_eq, ht]
  rfl

/-- A table is refused for its number of fragments if that is out of range, otherwise for its depth
if that is, and for nothing else. In all other cases it is complete, also when it is deeper than
there are fragments. -/
theorem generate_complete (fragments depth : ℕ) :
    generate fragments depth = ((ofCounts fragments depth).mapError .refused).map rows ∧
      (generate fragments depth = .error (.refused (.fragmentCountOutOfRange fragments 64)) ↔
        fragments = 0 ∨ 64 < fragments) ∧
      (generate fragments depth = .error (.refused (.failureDepthOutOfRange depth 4)) ↔
        ¬ (fragments = 0 ∨ 64 < fragments) ∧ (depth = 0 ∨ 4 < depth)) ∧
      (¬ (fragments = 0 ∨ 64 < fragments) → ¬ (depth = 0 ∨ 4 < depth) →
        ∃ t : FailureTable, ofCounts fragments depth = .ok t ∧
          generate fragments depth = .ok t.rows ∧ t.size = t.rows.length ∧
          IsComplete fragments depth t.rows) := by
  refine ⟨generate_eq fragments depth, ?_, ?_, generate_ok⟩
  · refine ⟨fun h => ?_, fun h => generate_fragments h depth⟩
    by_contra hf
    by_cases hd : depth = 0 ∨ failureWidth < depth
    · cases h.symm.trans (generate_depth hf hd)
    · obtain ⟨t, -, hrows, -⟩ := generate_ok hf hd
      cases h.symm.trans hrows
  · refine ⟨fun h => ?_, fun ⟨hf, hd⟩ => generate_depth hf hd⟩
    have hf : ¬ (fragments = 0 ∨ maxFragments < fragments) := by
      intro hf
      cases h.symm.trans (generate_fragments hf depth)
    refine ⟨hf, ?_⟩
    by_contra hd
    obtain ⟨t, -, hrows, -⟩ := generate_ok hf hd
    cases h.symm.trans hrows

/-- Two fragments have no sets of three or four. A number of fragments out of range is refused
before the depth. -/
theorem generate_complete_two :
    ¬ (2 = 0 ∨ 64 < 2) ∧ ¬ (4 = 0 ∨ 4 < 4) ∧
      generate 2 4 = .ok [[0, -1, -1, -1], [1, -1, -1, -1], [0, 1, -1, -1]] ∧
      IsComplete 2 4 [[0, -1, -1, -1], [1, -1, -1, -1], [0, 1, -1, -1]] ∧
      generate 65 0 = .error (.refused (.fragmentCountOutOfRange 65 64)) ∧
      generate 64 5 = .error (.refused (.failureDepthOutOfRange 5 4)) := by
  have hf : ¬ (2 = 0 ∨ 64 < 2) := by decide
  have hd : ¬ (4 = 0 ∨ 4 < 4) := by decide
  obtain ⟨-, -, -, htable⟩ := generate_complete 2 4
  obtain ⟨t, ht, hrows, -, hcomplete⟩ := htable hf hd
  have hlist : t.rows = [[0, -1, -1, -1], [1, -1, -1, -1], [0, 1, -1, -1]] := by
    cases ht
    decide
  rw [hlist] at hrows hcomplete
  exact ⟨hf, hd, hrows, hcomplete, (generate_complete 65 0).2.1.mpr (by decide),
    (generate_complete 64 5).2.2.1.mpr (by decide)⟩

end FlatXor.FailureTable
