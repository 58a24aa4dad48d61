import FlatXor.Proofs.FirstReport

/-!
# All reports of the detector

A detector can be asked on after it has reported. Its snapshot is at any time the state
that was observed as many observations ago as the distance says, so every report tells a
return, whatever the sequence is. The snapshot never goes back to an earlier place. On an
iteration the first report shows it to be on the circle, and from there on every return
takes a whole number of turns.
-/
namespace FlatXor.Detector

section Sequence

variable {α : Type} [DecidableEq α] {x : ℕ → α} {k a : ℕ} {d : Detector α}

/-- What the detector answers to the states of a sequence, one after the other. -/
theorem observeAll_eq_map_reportAt (x : ℕ → α) (n : ℕ) :
    (start (x 0)).observeAll ((List.range n).map fun k => x (k + 1)) =
      (List.range n).map (reportAt x) := by
  suffices h : ∀ k, (watch x k).observeAll ((List.range' k n).map fun k => x (k + 1)) =
      (List.range' k n).map (reportAt x) by
    rw [List.range_eq_range']
    exact h 0
  induction n with
  | zero => exact fun k => rfl
  | succ n ih =>
    intro k
    rw [List.range'_succ, List.map_cons, List.map_cons, observeAll]
    exact congrArg (reportAt x k :: ·) (ih (k + 1))

/-- After `k` observations the snapshot is the state at the place `a`, which lies as far
back as the distance says. -/
structure Placed (x : ℕ → α) (k a : ℕ) (d : Detector α) : Prop where
  index_eq : a + d.distance = k
  snapshot_eq : d.snapshot = x a

/-- An observation leaves the snapshot where it is, also when it is reported, or moves it
up to the state observed. -/
lemma Placed.observe (hd : Placed x k a d) :
    ∃ a', a ≤ a' ∧ Placed x (k + 1) a' (d.observe (x (k + 1))).2 := by
  obtain ⟨hindex, hsnap⟩ := hd
  have hnext : a + (d.distance + 1) = k + 1 := by omega
  unfold Detector.observe
  split_ifs with hmatch hfull
  · exact ⟨a, Nat.le_refl a, hnext, hsnap⟩
  · exact ⟨k + 1, by omega, rfl, rfl⟩
  · exact ⟨a, Nat.le_refl a, hnext, hsnap⟩

theorem Placed.exists_later (h : Placed x k a (watch x k)) (i : ℕ) :
    ∃ a', a ≤ a' ∧ Placed x (k + i) a' (watch x (k + i)) := by
  induction i with
  | zero => exact ⟨a, Nat.le_refl a, h⟩
  | succ i ih =>
    obtain ⟨a', hle, ha'⟩ := ih
    obtain ⟨a'', hle', ha''⟩ := ha'.observe
    exact ⟨a'', hle.trans hle', ha''⟩

lemma placed_start (x : ℕ → α) : Placed x 0 0 (watch x 0) := ⟨rfl, rfl⟩

/-- A report tells the distance to the snapshot, whose state is seen again. -/
theorem Placed.return_of_report {period : ℕ} (h : Placed x k a (watch x k))
    (hreport : reportAt x k = some period) :
    0 < period ∧ a + period = k + 1 ∧ x (a + period) = x a := by
  obtain ⟨hmatch, rfl⟩ := eq_of_observe_eq_some hreport
  have hplace : a + ((watch x k).distance + 1) = k + 1 := by
    have := h.index_eq
    omega
  refine ⟨Nat.succ_pos _, hplace, ?_⟩
  rw [hplace, hmatch, h.snapshot_eq]

/-- Every report on a sequence, also after others, tells a return of it. -/
theorem return_of_report {period : ℕ} (h : reportAt x k = some period) :
    0 < period ∧ period ≤ k + 1 ∧ x (k + 1) = x (k + 1 - period) := by
  obtain ⟨a, -, ha⟩ := (placed_start x).exists_later k
  rw [Nat.zero_add] at ha
  obtain ⟨hpos, hplace, hreturn⟩ := ha.return_of_report h
  have hback : k + 1 - period = a := by omega
  refine ⟨hpos, by omega, ?_⟩
  rw [hback, ← hplace, hreturn]

/-- A sequence that comes back after `q` places, but neither earlier nor before the place
`t`, has this tail and this period. -/
theorem Repeats.lasso_of_first_return {β : Type} {x : ℕ → β} {t q : ℕ} (h : Repeats x t q)
    (hfirst : ∀ j, 0 < j → j < q → x (t + j) ≠ x t)
    (htail : ∀ s, s + 1 = t → x (s + q) ≠ x s) : Lasso x t q where
  repeats := h
  tail_le := by
    intro t' q' h'
    by_contra hlt
    obtain ⟨s, hs⟩ := Nat.exists_eq_add_one_of_ne_zero (n := t) (by omega)
    exact htail s hs.symm ((h'.of_later h).2 s (by omega))
  period_le := by
    intro t' q' h'
    by_contra hlt
    exact hfirst q' h'.1 (by omega) ((h.of_later h').2 t (Nat.le_refl t))

end Sequence

variable {α : Type} {f : α → α} {y : α} {tail period : ℕ}

/-- On the circle a return takes a whole number of turns. -/
theorem Lasso.dvd_of_return (h : Lasso (fun k => f^[k] y) tail period) {a p : ℕ}
    (ha : tail ≤ a) (hreturn : f^[a + p] y = f^[a] y) : period ∣ p := by
  have hper : ∀ {n}, f^[a + n] y = f^[a] y → Function.IsPeriodicPt f n (f^[a] y) := by
    intro n hn
    rwa [Nat.add_comm, Function.iterate_add_apply] at hn
  have hturn : Function.IsPeriodicPt f period (f^[a] y) := hper (h.repeats.2 a ha)
  have hminimal : period = Function.minimalPeriod f (f^[a] y) := by
    apply Nat.le_antisymm
    · refine h.period_le a _ (repeats_of_return (hturn.minimalPeriod_pos h.repeats.1) ?_)
      rw [Nat.add_comm, Function.iterate_add_apply]
      exact Function.isPeriodicPt_minimalPeriod f (f^[a] y)
    · exact hturn.minimalPeriod_le h.repeats.1
  rw [hminimal]
  exact (hper hreturn).minimalPeriod_dvd

/-- Every report on an iteration that runs in a circle is a whole number of turns. -/
theorem Lasso.dvd_of_report [DecidableEq α] (h : Lasso (fun k => f^[k] y) tail period) {k p : ℕ}
    (hreport : reportAt (fun k => f^[k] y) k = some p) : period ∣ p := by
  obtain ⟨a, -, ha⟩ := (placed_start fun k => f^[k] y).exists_later k
  rw [Nat.zero_add] at ha
  obtain ⟨hpos, -, hreturn⟩ := ha.return_of_report hreport
  exact h.dvd_of_return (h.tail_le a p (repeats_of_return hpos hreturn)) hreturn

/-- The detector is exact. Of any sequence, a report tells a return, as long ago as it says.
On an iteration in which no state recurs there is no report. An iteration in which a state
recurs has a least tail and a least period. Its first report is the period, and comes one
period after the snapshot that stands before the least power of two which exceeds the tail
and is not below the period. All other reports come later, and are multiples of it. -/
theorem reports_tell_periods {α : Type} [DecidableEq α] :
    (∀ (x : ℕ → α) n, (start (x 0)).observeAll ((List.range n).map fun k => x (k + 1)) =
      (List.range n).map (reportAt x)) ∧
    (∀ (x : ℕ → α) k p, reportAt x k = some p →
      1 ≤ p ∧ p ≤ k + 1 ∧ x (k + 1) = x (k + 1 - p)) ∧
    ∀ (f : α → α) (y : α) (x : ℕ → α), x = (fun k => f^[k] y) →
      (Function.Injective x → ∀ k, reportAt x k = none) ∧
      (¬ Function.Injective x → ∃ tail period, Lasso x tail period) ∧
      ∀ tail period e, Lasso x tail period → IsLeast {e | max (tail + 1) period ≤ 2 ^ e} e →
        ∃ k, k + 1 = 2 ^ e - 1 + period ∧ (∀ i < k, reportAt x i = none) ∧
          reportAt x k = some period ∧
          ∀ i p, reportAt x i = some p → k ≤ i ∧ 0 < p ∧ period ∣ p := by
  refine ⟨observeAll_eq_map_reportAt, fun x k p h => return_of_report h, ?_⟩
  rintro f y x rfl
  refine ⟨?_, ?_, ?_⟩
  · intro hinj k
    by_contra hne
    obtain ⟨p, hp⟩ := Option.ne_none_iff_exists'.mp hne
    obtain ⟨hpos, hle, hreturn⟩ := return_of_report hp
    have := hinj hreturn
    omega
  · intro hrecurs
    obtain ⟨i, j, hlt, hreturn⟩ : ∃ i j, i < j ∧ f^[j] y = f^[i] y := by
      simp only [Function.Injective, not_forall] at hrecurs
      obtain ⟨i, j, hij, hne⟩ := hrecurs
      rcases Nat.lt_or_gt_of_ne hne with hlt | hlt
      · exact ⟨i, j, hlt, hij.symm⟩
      · exact ⟨j, i, hlt, hij⟩
    obtain ⟨q, rfl⟩ := Nat.exists_eq_add_of_lt hlt
    exact (repeats_of_return (Nat.succ_pos q) hreturn).exists_lasso
  · intro tail period e h he
    obtain ⟨k, hk, hquiet, hreport⟩ := h.first_report he
    refine ⟨k, hk, hquiet, hreport, fun i p hp => ⟨?_, (return_of_report hp).1, h.dvd_of_report hp⟩⟩
    by_contra hlt
    rw [hquiet i (by omega)] at hp
    cases hp

/-- Up from 0 to 4 and then back to 1: a tail of one state and a circle of four. -/
def oneThenFour (i : ℕ) : ℕ := if i = 4 then 1 else i + 1

/-- The period is the power of two at which the snapshot would have been replaced. The report
at observation 7 leaves it in place, so the next one, at observation 11, tells two turns. -/
theorem oneThenFour_reports :
    Lasso (fun k => oneThenFour^[k] 0) 1 4 ∧ IsLeast {e | max (1 + 1) 4 ≤ 2 ^ e} 2 ∧
      (∃ k, k + 1 = 7 ∧ (∀ i < k, reportAt (fun k => oneThenFour^[k] 0) i = none) ∧
        reportAt (fun k => oneThenFour^[k] 0) k = some 4) ∧
      reportAt (fun k => oneThenFour^[k] 0) 10 = some 8 ∧ 0 < 8 ∧ 4 ∣ 8 := by
  have hfirst : ∀ j < 4, 0 < j → oneThenFour^[1 + j] 0 ≠ oneThenFour^[1] 0 := by decide
  have htail : ∀ s < 1, oneThenFour^[s + 4] 0 ≠ oneThenFour^[s] 0 := by decide
  have hlasso : Lasso (fun k => oneThenFour^[k] 0) 1 4 := by
    refine (repeats_of_return (by decide) (by decide)).lasso_of_first_return ?_ ?_
    · exact fun j hpos hlt => hfirst j hlt hpos
    · exact fun s hs => htail s (by omega)
  have hleast : IsLeast {e | max (1 + 1) 4 ≤ 2 ^ e} 2 := by
    refine ⟨by decide, fun e he => ?_⟩
    have hwide : 2 ^ 2 ≤ 2 ^ e := he
    exact (Nat.pow_le_pow_iff_right (by decide)).mp hwide
  obtain ⟨k, hk, hquiet, hreport, hall⟩ :=
    ((reports_tell_periods.2.2 oneThenFour 0 _ rfl).2.2 1 4 2) hlasso hleast
  have hlater : reportAt (fun k => oneThenFour^[k] 0) 10 = some 8 := by decide
  exact ⟨hlasso, hleast, ⟨k, hk, hquiet, hreport⟩, hlater, (hall 10 8 hlater).2⟩

end FlatXor.Detector
