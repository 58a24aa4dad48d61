import FlatXor.SearchState
import FlatXor.Proofs.ParitySubset

/-!
# One step of a coverage search

The step function is opened once, here. Its graph is a relation with one rule
for each kind of move, and every later argument about what a step can do is a
case split on the rules. A rule names the part of the pool before the candidate
that it takes, in which nothing qualifies.
-/
namespace FlatXor.SearchState

/-- Can the candidate be selected while these parities are needed? -/
def Qualifies (p : CodeParams) (needed c : ParitySet) : Prop :=
  if p.weight ≤ needed.size then c ⊆ needed else needed ⊆ c

instance (p : CodeParams) (needed c : ParitySet) : Decidable (Qualifies p needed c) :=
  inferInstanceAs (Decidable (if p.weight ≤ needed.size then c ⊆ needed else needed ⊆ c))

lemma qualifies_iff_of_le {p : CodeParams} {needed c : ParitySet}
    (h : p.weight ≤ needed.size) : Qualifies p needed c ↔ c ⊆ needed := by
  rw [Qualifies, if_pos h]

lemma qualifies_iff_of_lt {p : CodeParams} {needed c : ParitySet}
    (h : needed.size < p.weight) : Qualifies p needed c ↔ needed ⊆ c := by
  rw [Qualifies, if_neg (Nat.not_le_of_gt h)]

/-- What one step from `s` does and where it leads. -/
inductive Step (p : CodeParams) (s : SearchState) : Move → SearchState → Prop
  | cover {c : ParitySet} {front back : Pool} (hweight : p.weight ≤ s.needed.size)
      (hc : c ⊆ s.needed) (hfront : ∀ d ∈ front, ¬ d ⊆ s.needed)
      (hpool : s.pool = front ++ c :: back) :
      Step p s (.cover c) ⟨s.needed.diff c, front ++ back, c :: s.used⟩
  | rollover {c : ParitySet} {front back : Pool} (hweight : s.needed.size < p.weight)
      (hc : s.needed ⊆ c) (hfront : ∀ d ∈ front, ¬ s.needed ⊆ d)
      (hpool : s.pool = front ++ c :: back) :
      Step p s (.rollover c) ⟨p.full.symmDiff (c.diff s.needed), front ++ back, c :: s.used⟩
  | backtrack {c : ParitySet} {used : UsedStack} (hstall : ∀ d ∈ s.pool, ¬ Qualifies p s.needed d)
      (hused : s.used = c :: used) :
      Step p s (.backtrack c) ⟨s.needed.union c, s.pool ++ [c], used⟩

theorem select?_eq_none_iff {p : CodeParams} {s : SearchState} :
    s.select? p = none ↔ ∀ c ∈ s.pool, ¬ Qualifies p s.needed c := by
  unfold select?
  split
  · next h =>
    simp only [Option.map_eq_none_iff, Pool.takeFirst?_eq_none_iff, ParitySet.isSubset_eq_true_iff,
      qualifies_iff_of_le h]
  · next h =>
    simp only [Option.map_eq_none_iff, Pool.takeFirst?_eq_none_iff, ParitySet.isSubset_eq_true_iff,
      qualifies_iff_of_lt (Nat.lt_of_not_le h)]

theorem step_of_select? {p : CodeParams} {s s' : SearchState} {move : Move}
    (h : s.select? p = some (move, s')) : Step p s move s' := by
  unfold select? at h
  split at h
  · next hweight =>
    obtain ⟨⟨c, rest⟩, htake, heq⟩ := Option.map_eq_some_iff.mp h
    obtain ⟨hc, front, back, hfront, hpool, rfl⟩ := Pool.takeFirst?_eq_some_iff.mp htake
    simp only [ParitySet.isSubset_eq_true_iff] at hc hfront
    obtain ⟨rfl, rfl⟩ := Prod.mk.inj heq
    rw [ParitySet.symmDiff_of_subset hc]
    exact .cover hweight hc hfront hpool
  · next hweight =>
    obtain ⟨⟨c, rest⟩, htake, heq⟩ := Option.map_eq_some_iff.mp h
    obtain ⟨hc, front, back, hfront, hpool, rfl⟩ := Pool.takeFirst?_eq_some_iff.mp htake
    simp only [ParitySet.isSubset_eq_true_iff] at hc hfront
    obtain ⟨rfl, rfl⟩ := Prod.mk.inj heq
    exact .rollover (Nat.lt_of_not_le hweight) hc hfront hpool

theorem step_of_advance? {p : CodeParams} {s s' : SearchState} {move : Move}
    (h : s.advance? p = some (move, s')) : Step p s move s' := by
  unfold advance? at h
  cases hselect : s.select? p with
  | some r =>
    rw [hselect] at h
    exact step_of_select? (hselect.trans h)
  | none =>
    rw [hselect] at h
    obtain ⟨⟨c, used⟩, hpop, heq⟩ := Option.map_eq_some_iff.mp h
    obtain ⟨rfl, rfl⟩ := Prod.mk.inj heq
    have hused : s.used = c :: used := by
      unfold UsedStack.pop? at hpop
      split at hpop
      · cases hpop
      · next hs =>
        rw [hs]
        cases hpop
        rfl
    exact .backtrack (select?_eq_none_iff.mp hselect) hused

/-- A rule applies in one way only: the candidate that it takes is the first. -/
theorem advance?_of_step {p : CodeParams} {s s' : SearchState} {move : Move}
    (h : Step p s move s') : s.advance? p = some (move, s') := by
  cases h with
  | @cover c front back hweight hc hfront hpool =>
    have htake : s.pool.takeFirst? (fun d => d.isSubset s.needed) = some (c, front ++ back) :=
      Pool.takeFirst?_eq_some_iff.mpr ⟨by simpa using hc, front, back,
        by simpa using hfront, hpool, rfl⟩
    simp only [advance?, select?, if_pos hweight, htake, Option.map_some]
    rw [ParitySet.symmDiff_of_subset hc]
    rfl
  | @rollover c front back hweight hc hfront hpool =>
    have htake : s.pool.takeFirst? (fun d => s.needed.isSubset d) = some (c, front ++ back) :=
      Pool.takeFirst?_eq_some_iff.mpr ⟨by simpa using hc, front, back,
        by simpa using hfront, hpool, rfl⟩
    simp only [advance?, select?, if_neg (Nat.not_le_of_gt hweight), htake, Option.map_some]
    rfl
  | @backtrack c used hstall hused =>
    simp only [advance?, select?_eq_none_iff.mpr hstall, takeBack?, hused, UsedStack.pop?,
      Option.map_some]
    rfl

/-- The relation is the graph of the step function. -/
theorem advance?_eq_some_iff {p : CodeParams} {s s' : SearchState} {move : Move} :
    s.advance? p = some (move, s') ↔ Step p s move s' :=
  ⟨step_of_advance?, advance?_of_step⟩

/-- Without a step there is nothing to select and nothing to take back. -/
theorem advance?_eq_none_iff {p : CodeParams} {s : SearchState} :
    s.advance? p = none ↔ (∀ c ∈ s.pool, ¬ Qualifies p s.needed c) ∧ s.used = [] := by
  rw [← select?_eq_none_iff]
  unfold advance? takeBack?
  cases hselect : s.select? p with
  | some r => simp
  | none => cases hused : s.used <;> simp [UsedStack.pop?]

theorem isConverged_eq_true_iff {p : CodeParams} {s : SearchState} :
    s.isConverged p = true ↔ s.pool.length ≤ p.parities := by
  simp [isConverged]

lemma next_of_converged {p : CodeParams} {s : SearchState} (h : s.pool.length ≤ p.parities) :
    s.next p = s := by
  rw [next, if_pos (isConverged_eq_true_iff.mpr h)]

/-- Before the search is over, a step is what the relation says. -/
theorem next_of_step {p : CodeParams} {s s' : SearchState} {move : Move}
    (hopen : p.parities < s.pool.length) (h : Step p s move s') : s.next p = s' := by
  rw [next, if_neg (by rw [isConverged_eq_true_iff]; omega), advance?_of_step h]

end FlatXor.SearchState
