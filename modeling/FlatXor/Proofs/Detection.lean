import FlatXor.Oscillation
import Mathlib.Data.Nat.Log
import Mathlib.Dynamics.PeriodicPts.Defs

/-!
# What the detector reports

The states observed are a sequence, the first of them before any observation. Until
its first report the detector has compared every state with a snapshot, and the
snapshots stand just before the powers of two. So the first report tells the first
return to a state, and it comes soon after the snapshots have reached the circle.
-/
namespace FlatXor.Detector

variable {α : Type} [DecidableEq α] {x : ℕ → α}

/-- The detector started from `x 0`, after `k` observations. -/
def watch (x : ℕ → α) : ℕ → Detector α
  | 0 => start (x 0)
  | k + 1 => ((watch x k).observe (x (k + 1))).2

/-- The report on the observation that follows `k` others. -/
def reportAt (x : ℕ → α) (k : ℕ) : Option ℕ := ((watch x k).observe (x (k + 1))).1

lemma observe_eq_none_iff {d : Detector α} {state : α} :
    (d.observe state).1 = none ↔ state ≠ d.snapshot := by
  unfold observe
  split_ifs <;> simp_all

lemma eq_of_observe_eq_some {d : Detector α} {state : α} {period : ℕ}
    (h : (d.observe state).1 = some period) :
    state = d.snapshot ∧ period = d.distance + 1 := by
  unfold observe at h
  split_ifs at h with hsnap
  · exact ⟨hsnap, (Option.some.inj h).symm⟩

/-- The detector after `k` observations without a report: its snapshot is the state
before number `2 ^ e`, and no state observed since is the same. -/
structure Quiet (x : ℕ → α) (k e : ℕ) (d : Detector α) : Prop where
  power_eq : d.power = 2 ^ e
  index_eq : k + 1 = 2 ^ e + d.distance
  distance_lt : d.distance < 2 ^ e
  snapshot_eq : d.snapshot = x (2 ^ e - 1)
  fresh : ∀ j, 0 < j → j ≤ d.distance → x (2 ^ e - 1 + j) ≠ x (2 ^ e - 1)

lemma Quiet.observe {k e : ℕ} {d : Detector α} (hd : Quiet x k e d)
    (h : (d.observe (x (k + 1))).1 = none) :
    ∃ e', Quiet x (k + 1) e' (d.observe (x (k + 1))).2 := by
  obtain ⟨hpower, hindex, hlt, hsnap, hfresh⟩ := hd
  have hne : x (k + 1) ≠ d.snapshot := observe_eq_none_iff.mp h
  have hpos : 0 < 2 ^ e := Nat.two_pow_pos e
  unfold Detector.observe
  rw [if_neg hne]
  by_cases hfull : d.distance + 1 = d.power
  · rw [if_pos hfull]
    have hsucc : 2 ^ (e + 1) = 2 * 2 ^ e := Nat.pow_succ'
    have hlast : 2 ^ (e + 1) - 1 = k + 1 := by omega
    refine ⟨e + 1, by rw [hsucc, hpower], ?_, Nat.two_pow_pos _, by rw [hlast], ?_⟩
    · show k + 1 + 1 = 2 ^ (e + 1) + 0
      omega
    · intro j hj hle
      have hzero : j ≤ 0 := hle
      omega
  · rw [if_neg hfull]
    refine ⟨e, hpower, ?_, ?_, hsnap, ?_⟩
    · show k + 1 + 1 = 2 ^ e + (d.distance + 1)
      omega
    · show d.distance + 1 < 2 ^ e
      omega
    · intro j hj hle
      by_cases hlast : j = d.distance + 1
      · have hk : 2 ^ e - 1 + j = k + 1 := by omega
        rw [hk, ← hsnap]
        exact hne
      · have hle' : j ≤ d.distance + 1 := hle
        exact hfresh j hj (by omega)

theorem exists_quiet {k : ℕ} (h : ∀ i < k, reportAt x i = none) : ∃ e, Quiet x k e (watch x k) := by
  induction k with
  | zero => exact ⟨0, rfl, rfl, Nat.one_pos, rfl, fun j hj hle => absurd hj (Nat.not_lt_of_le hle)⟩
  | succ k ih =>
    obtain ⟨e, he⟩ := ih fun i hi => h i (Nat.lt_succ_of_lt hi)
    exact he.observe (h k (Nat.lt_succ_self k))

/-- The first report compares the state reached with a snapshot, and tells how long the
sequence took to come back to it for the first time. -/
theorem first_report_of_snapshot {k period : ℕ} (hquiet : ∀ i < k, reportAt x i = none)
    (h : reportAt x k = some period) :
    ∃ e, 2 ^ e - 1 + period = k + 1 ∧ 0 < period ∧ period ≤ 2 ^ e ∧
      x (2 ^ e - 1 + period) = x (2 ^ e - 1) ∧
      ∀ j, 0 < j → j < period → x (2 ^ e - 1 + j) ≠ x (2 ^ e - 1) := by
  obtain ⟨e, he⟩ := exists_quiet hquiet
  obtain ⟨hmatch, rfl⟩ := eq_of_observe_eq_some h
  have hindex := he.index_eq
  have hpos : 0 < 2 ^ e := Nat.two_pow_pos e
  have hk : 2 ^ e - 1 + ((watch x k).distance + 1) = k + 1 := by omega
  refine ⟨e, hk, Nat.succ_pos _, he.distance_lt, ?_, ?_⟩
  · rw [hk, hmatch, he.snapshot_eq]
  · intro j hj hlt
    exact he.fresh j hj (Nat.le_of_lt_succ hlt)

/-- The first report tells how long the sequence took to come back, for the first time,
to the state that it has reached. -/
theorem first_report {k period : ℕ} (hquiet : ∀ i < k, reportAt x i = none)
    (h : reportAt x k = some period) :
    ∃ a, a + period = k + 1 ∧ 0 < period ∧ x (a + period) = x a ∧
      ∀ j, 0 < j → j < period → x (a + j) ≠ x a := by
  obtain ⟨e, hk, hpos, -, hreturn, hfirst⟩ := first_report_of_snapshot hquiet h
  exact ⟨2 ^ e - 1, hk, hpos, hreturn, hfirst⟩

/-- A number is a power of two and a smaller rest in one way. -/
lemma exponent_unique {a b u v : ℕ} (hu : u < 2 ^ a) (hv : v < 2 ^ b)
    (h : 2 ^ a + u = 2 ^ b + v) : a = b := by
  rcases Nat.lt_trichotomy a b with hab | hab | hab
  · have hpow : 2 ^ (a + 1) ≤ 2 ^ b := Nat.pow_le_pow_right Nat.two_pos hab
    rw [Nat.pow_succ] at hpow
    omega
  · exact hab
  · have hpow : 2 ^ (b + 1) ≤ 2 ^ a := Nat.pow_le_pow_right Nat.two_pos hab
    rw [Nat.pow_succ] at hpow
    omega

/-- A sequence that runs in a circle is reported by the time that the first snapshot
on the circle, taken when the distance allowed covers the circle, recurs. -/
theorem exists_report {tail period e : ℕ} (hper : ∀ j, tail ≤ j → x (j + period) = x j)
    (hpos : 0 < period) (htail : tail < 2 ^ e) (hcircle : period ≤ 2 ^ e) :
    ∃ k < 2 ^ e - 1 + period, reportAt x k ≠ none := by
  by_contra hno
  push Not at hno
  have hk : 2 ^ e - 1 + period = 2 ^ e + (period - 1) - 1 + 1 := by omega
  obtain ⟨e', he'⟩ := exists_quiet (k := 2 ^ e + (period - 1) - 1)
    fun i hi => hno i (by omega)
  have hindex := he'.index_eq
  have hexp : e = e' :=
    exponent_unique (u := period - 1) (by omega) he'.distance_lt (by omega)
  subst hexp
  have hlast := observe_eq_none_iff.mp (hno (2 ^ e + (period - 1) - 1) (by omega))
  rw [he'.snapshot_eq, ← hk] at hlast
  exact hlast (hper _ (by omega))

/-- The report in terms of the length of the tail before the circle. -/
theorem exists_report_within {tail period : ℕ} (hper : ∀ j, tail ≤ j → x (j + period) = x j)
    (hpos : 0 < period) :
    ∃ k, k + 2 < 2 * max (tail + 1) period + period ∧ reportAt x k ≠ none := by
  have hle := Nat.le_pow_clog Nat.one_lt_two (max (tail + 1) period)
  have hlt : 2 ^ Nat.clog 2 (max (tail + 1) period) < 2 * max (tail + 1) period := by
    by_cases hone : max (tail + 1) period = 1
    · rw [hone]
      decide
    · have hpred := Nat.pow_pred_clog_lt_self Nat.one_lt_two
        (x := max (tail + 1) period) (by omega)
      have hclog : 0 < Nat.clog 2 (max (tail + 1) period) :=
        Nat.clog_pos Nat.one_lt_two (by omega)
      rw [← Nat.succ_pred_eq_of_pos hclog, Nat.pow_succ]
      omega
  obtain ⟨k, hk, hreport⟩ := exists_report (e := Nat.clog 2 (max (tail + 1) period)) hper hpos
    (by omega) (by omega)
  exact ⟨k, by omega, hreport⟩

end FlatXor.Detector
