import FlatXor.Proofs.Detection
import Mathlib.Order.Bounds.Basic

/-!
# When the first report comes

A sequence that runs in a circle has a tail before the circle, and both have a least
length. The snapshots stand just before the powers of two. The first of them that lies
on the circle and is kept for a whole turn is the one that recurs, so the lengths of the
tail and of the circle decide at which observation the detector reports.
-/
namespace FlatXor.Detector

/-- From the place `tail` on the sequence comes back after every `period` places. -/
def Repeats {α : Type} (x : ℕ → α) (tail period : ℕ) : Prop :=
  0 < period ∧ ∀ j, tail ≤ j → x (j + period) = x j

/-- The sequence repeats, with the least tail and the least period. -/
structure Lasso {α : Type} (x : ℕ → α) (tail period : ℕ) : Prop where
  repeats : Repeats x tail period
  tail_le : ∀ t q, Repeats x t q → tail ≤ t
  period_le : ∀ t q, Repeats x t q → period ≤ q

section Sequence

variable {α : Type} {x : ℕ → α} {t q : ℕ}

lemma Repeats.add_mul (h : Repeats x t q) {j : ℕ} (hj : t ≤ j) (i : ℕ) : x (j + i * q) = x j := by
  induction i with
  | zero => simp
  | succ i ih =>
    have hplace : j + (i + 1) * q = j + i * q + q := by
      rw [Nat.succ_mul, Nat.add_assoc]
    rw [hplace, h.2 _ (by omega), ih]

/-- A period of a late part is one of every earlier part that repeats at all. -/
theorem Repeats.of_later {t' q' : ℕ} (h : Repeats x t q) (h' : Repeats x t' q') :
    Repeats x t q' := by
  refine ⟨h'.1, fun j hj => ?_⟩
  -- go on by whole turns until the late part is reached, and come back by as many
  have hlate : t' ≤ j + t' * q := by
    have := Nat.le_mul_of_pos_right t' h.1
    omega
  have hshift : j + q' + t' * q = j + t' * q + q' := by omega
  calc
    x (j + q') = x (j + q' + t' * q) := (h.add_mul (by omega) t').symm
    _ = x (j + t' * q + q') := by rw [hshift]
    _ = x (j + t' * q) := h'.2 _ hlate
    _ = x j := h.add_mul hj t'

/-- What repeats at all has a least tail and a least period. -/
theorem Repeats.exists_lasso (h : Repeats x t q) : ∃ tail period, Lasso x tail period := by
  classical
  have htail : ∃ t, ∃ q, Repeats x t q := ⟨t, q, h⟩
  have hperiod : ∃ q, ∃ t, Repeats x t q := ⟨q, t, h⟩
  obtain ⟨q₀, hq₀⟩ := Nat.find_spec htail
  obtain ⟨t₀, ht₀⟩ := Nat.find_spec hperiod
  refine ⟨Nat.find htail, Nat.find hperiod, hq₀.of_later ht₀, ?_, ?_⟩
  · intro t' q' h'
    exact Nat.find_min' htail ⟨q', h'⟩
  · intro t' q' h'
    exact Nat.find_min' hperiod ⟨t', h'⟩

end Sequence

variable {α : Type} {f : α → α} {y : α} {tail period e : ℕ}

/-- An iteration that comes back to a place repeats from there on. -/
lemma repeats_of_return {a : ℕ} (hpos : 0 < period) (h : f^[a + period] y = f^[a] y) :
    Repeats (fun k => f^[k] y) a period := by
  refine ⟨hpos, fun j hj => ?_⟩
  obtain ⟨i, rfl⟩ := Nat.exists_eq_add_of_le hj
  have hplace : a + i + period = i + (a + period) := by omega
  show f^[a + i + period] y = f^[a + i] y
  rw [hplace, Function.iterate_add_apply, h, ← Function.iterate_add_apply, Nat.add_comm i a]

/-- The detector is silent until the observation that follows the snapshot before the
least sufficient power of two by one turn of the circle. It then reports the period. -/
theorem Lasso.first_report [DecidableEq α] (h : Lasso (fun k => f^[k] y) tail period)
    (he : IsLeast {e | max (tail + 1) period ≤ 2 ^ e} e) :
    ∃ k, k + 1 = 2 ^ e - 1 + period ∧ (∀ i < k, reportAt (fun k => f^[k] y) i = none) ∧
      reportAt (fun k => f^[k] y) k = some period := by
  have hpos := h.repeats.1
  have hwide : max (tail + 1) period ≤ 2 ^ e := he.1
  obtain ⟨late, hlate, hreport⟩ :=
    exists_report (x := fun k => f^[k] y) (e := e) h.repeats.2 hpos (by omega) (by omega)
  have hex : ∃ k, reportAt (fun k => f^[k] y) k ≠ none := ⟨late, hreport⟩
  have hquiet : ∀ i < Nat.find hex, reportAt (fun k => f^[k] y) i = none := by
    intro i hi
    by_contra hne
    exact Nat.find_min hex hi hne
  have hle : Nat.find hex ≤ late := Nat.find_min' hex hreport
  obtain ⟨period', hperiod'⟩ := Option.ne_none_iff_exists'.mp (Nat.find_spec hex)
  obtain ⟨e', hplace, hpos', hfits, hreturn, hfirst⟩ := first_report_of_snapshot hquiet hperiod'
  have hrepeats : Repeats (fun k => f^[k] y) (2 ^ e' - 1) period' :=
    repeats_of_return hpos' hreturn
  have htail := h.tail_le _ _ hrepeats
  have hperiod := h.period_le _ _ hrepeats
  -- the snapshot is on the circle, so it recurs after one turn and the report is exact
  have hexact : period' = period := by
    by_contra hne
    exact hfirst period hpos (by omega) (h.repeats.2 _ htail)
  have hpow' := Nat.two_pow_pos e'
  have hwide' : max (tail + 1) period ≤ 2 ^ e' := by omega
  have hmin : e ≤ e' := he.2 hwide'
  have hpow : 2 ^ e ≤ 2 ^ e' := Nat.pow_le_pow_right Nat.two_pos hmin
  refine ⟨Nat.find hex, by omega, hquiet, ?_⟩
  rw [hperiod', hexact]

end FlatXor.Detector
