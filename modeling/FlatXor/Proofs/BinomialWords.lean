import FlatXor.CodeParams
import FlatXor.Proofs.Binomials
import Mathlib.Data.Nat.Choose.Bounds

/-!
# Binomial coefficients in machine words

The sums, differences and products of the running product are of 64-bit words. The number of
rounds is at most half of `n`, and up to there the products `C(n, i) * (n - i)`, which are
`(i + 1) * C(n, i + 1)`, only grow. So the last of them decides: if it fits a word the result
is exact, and otherwise some product overflows, even where the coefficient itself would fit.
-/
namespace FlatXor

namespace Binomial

variable {n k i j : ℕ}

lemma mul_choose_le_succ (hi : i < n / 2) : i * n.choose i ≤ (i + 1) * n.choose (i + 1) :=
  Nat.mul_le_mul (Nat.le_succ i) (Nat.choose_le_succ_of_lt_half_left hi)

/-- Up to half of `n` the last product is the largest. -/
lemma mul_choose_le (hij : i ≤ j) (hj : j ≤ n / 2) : i * n.choose i ≤ j * n.choose j := by
  induction j, hij using Nat.le_induction with
  | base => exact Nat.le_refl _
  | succ j _ ih => exact (ih (Nat.le_of_succ_le hj)).trans (mul_choose_le_succ hj)

lemma product_eq (n i : ℕ) : n.choose i * (n - i) = (i + 1) * n.choose (i + 1) := by
  rw [← Nat.choose_succ_right_eq, Nat.mul_comm]

lemma rounds_le_half (n k : ℕ) : rounds n k ≤ n / 2 := by
  rw [rounds]
  omega

lemma rounds_of_lt (h : n < k) : rounds n k = 0 := by
  rw [rounds]
  omega

/-- The running value is exact as long as the product before it fits a word. -/
theorem runningInWords_eq (hn : n < wordLimit) (hi : i ≤ n / 2) :
    runningInWords n i =
      if i * n.choose i < wordLimit then .ok (n.choose i) else .error .overflow := by
  induction i with
  | zero =>
    rw [Nat.zero_mul, if_pos (by decide), Nat.choose_zero_right]
    rfl
  | succ i ih =>
    have hsub : subIndex n i = .ok (n - i) := subIndex_of_le (by omega)
    have hadd : addIndex i 1 = .ok (i + 1) := addIndex_of_lt (by omega)
    rw [runningInWords, ih (Nat.le_of_succ_le hi)]
    by_cases hbefore : i * n.choose i < wordLimit
    · rw [if_pos hbefore]
      by_cases hproduct : (i + 1) * n.choose (i + 1) < wordLimit
      · simp only [bind, Except.bind, hsub, hadd, mulIndex, product_eq, if_pos hproduct]
        rw [Nat.mul_div_cancel_left _ (Nat.succ_pos i)]
        rfl
      · simp only [bind, Except.bind, hsub, mulIndex, product_eq, if_neg hproduct]
    · have hproduct : ¬ (i + 1) * n.choose (i + 1) < wordLimit := by
        have := mul_choose_le_succ (n := n) hi
        omega
      rw [if_neg hbefore, if_neg hproduct]
      rfl

/-- The last product alone decides whether the result is exact or a product overflows. -/
theorem chooseInWords_eq (hn : n < wordLimit) :
    chooseInWords n k = if rounds n k * n.choose (rounds n k) < wordLimit
      then .ok (choose n k) else .error .overflow := by
  by_cases hlt : n < k
  · rw [chooseInWords, if_pos hlt, choose_of_lt hlt, rounds_of_lt hlt, Nat.zero_mul,
      if_pos (by decide)]
    rfl
  · have hrounds : (if n - k < k then n - k else k) = rounds n k := by
      rw [rounds]
      split_ifs <;> omega
    have hloop : chooseInWords n k = runningInWords n (rounds n k) := by
      rw [chooseInWords, if_neg hlt, subIndex_of_le (Nat.le_of_not_lt hlt), ← hrounds]
      rfl
    rw [hloop, runningInWords_eq hn (rounds_le_half n k), choose, if_neg hlt, running_eq_choose]

lemma choose_le_pow (hn : n ≤ 64) (hk : k ≤ 4) : n.choose k ≤ 64 ^ 4 := by
  calc n.choose k ≤ n ^ k := Nat.choose_le_pow n k
    _ ≤ 64 ^ k := Nat.pow_le_pow_left hn k
    _ ≤ 64 ^ 4 := Nat.pow_le_pow_right (by decide) hk

/-- The coefficients that codes and failure tables need are all exact. -/
theorem chooseInWords_of_le (hn : n ≤ 64) (hk : k ≤ 4) : chooseInWords n k = .ok (choose n k) := by
  have hrounds : rounds n k ≤ 4 := (Nat.min_le_left _ _).trans hk
  have hfits : rounds n k * n.choose (rounds n k) < wordLimit :=
    Nat.lt_of_le_of_lt (Nat.mul_le_mul hrounds (choose_le_pow hn hrounds)) (by decide)
  rw [chooseInWords_eq (Nat.lt_of_le_of_lt hn (by decide)), if_pos hfits]

/-- When the last product fits a word, or when there is no round at all, the result is the
binomial coefficient. Then each round has the coefficient of its number as its running value,
its product fits a word, and its division leaves no remainder. -/
theorem choose_exact_in_words (hn : n < wordLimit)
    (hfits : n < k ∨ rounds n k * n.choose (rounds n k) < wordLimit) :
    choose n k = n.choose k ∧ chooseInWords n k = .ok (n.choose k) ∧
      (∀ i ≤ rounds n k, running n i = n.choose i ∧ runningInWords n i = .ok (n.choose i)) ∧
      ∀ i < rounds n k, n.choose i * (n - i) < wordLimit ∧ i + 1 ∣ n.choose i * (n - i) := by
  have hlast : rounds n k * n.choose (rounds n k) < wordLimit := by
    obtain hlt | hlast := hfits
    · rw [rounds_of_lt hlt, Nat.zero_mul]
      decide
    · exact hlast
  have hproduct : ∀ i ≤ rounds n k, i * n.choose i < wordLimit := fun i hi =>
    Nat.lt_of_le_of_lt (mul_choose_le hi (rounds_le_half n k)) hlast
  refine ⟨choose_eq_choose n k, ?_, fun i hi => ⟨running_eq_choose n i, ?_⟩, fun i hi => ?_⟩
  · rw [chooseInWords_eq hn, if_pos hlast, choose_eq_choose]
  · rw [runningInWords_eq hn (hi.trans (rounds_le_half n k)), if_pos (hproduct i hi)]
  · rw [product_eq]
    exact ⟨hproduct (i + 1) hi, Nat.dvd_mul_right _ _⟩

/-- With `2 ^ 32` elements the product of the second round is only `2 ^ 32` short of the limit,
for pairs and for their complements. With one element more it overflows. -/
theorem choose_exact_at_limit :
    2 ^ 32 < wordLimit ∧
      rounds (2 ^ 32) (2 ^ 32 - 2) * (2 ^ 32).choose (rounds (2 ^ 32) (2 ^ 32 - 2)) =
        wordLimit - 2 ^ 32 ∧
      choose (2 ^ 32) (2 ^ 32 - 2) = (2 ^ 32).choose (2 ^ 32 - 2) ∧
      chooseInWords (2 ^ 32) (2 ^ 32 - 2) = .ok ((2 ^ 32).choose (2 ^ 32 - 2)) ∧
      runningInWords (2 ^ 32) 1 = .ok (2 ^ 32) ∧
      chooseInWords (2 ^ 32 + 1) 2 = .error .overflow := by
  have hlimit : 2 ^ 32 < wordLimit := by decide
  have hrounds : rounds (2 ^ 32) (2 ^ 32 - 2) = 2 := by decide
  have hlast : rounds (2 ^ 32) (2 ^ 32 - 2) * (2 ^ 32).choose (rounds (2 ^ 32) (2 ^ 32 - 2)) =
      wordLimit - 2 ^ 32 := by
    rw [hrounds, Nat.choose_two_right]
    decide
  have hfits : rounds (2 ^ 32) (2 ^ 32 - 2) * (2 ^ 32).choose (rounds (2 ^ 32) (2 ^ 32 - 2)) <
      wordLimit := by
    rw [hlast]
    decide
  obtain ⟨hchoose, hwords, hrunning, -⟩ := choose_exact_in_words hlimit (.inr hfits)
  refine ⟨hlimit, hlast, hchoose, hwords, ?_, by decide⟩
  rw [(hrunning 1 (by rw [hrounds]; decide)).2, Nat.choose_one_right]

end Binomial

/-- The candidates of every code are counted without overflow. -/
theorem CodeParams.candidateCount_in_words (p : CodeParams) :
    Binomial.chooseInWords p.parities p.weight = .ok p.candidateCount := by
  refine Binomial.chooseInWords_of_le p.parities_le ?_
  rw [weight]
  cases p.arity <;> decide

end FlatXor
