import FlatXor.Binomial
import Mathlib.Data.Nat.Choose.Basic

/-!
# The running product is a binomial coefficient

After `i` rounds the running value is the number of `i`-element subsets, since the product of the
next round is a multiple of the divisor: `C(n, i) * (n - i) = C(n, i + 1) * (i + 1)`.
-/
namespace FlatXor.Binomial

theorem running_eq_choose (n i : ℕ) : running n i = n.choose i := by
  induction i with
  | zero => rw [running_zero, Nat.choose_zero_right]
  | succ i ih =>
    rw [running_succ, ih, ← Nat.choose_succ_right_eq, Nat.mul_div_cancel _ (Nat.succ_pos i)]

theorem choose_eq_choose (n k : ℕ) : choose n k = n.choose k := by
  by_cases hlt : n < k
  · rw [choose_of_lt hlt, Nat.choose_eq_zero_of_lt hlt]
  · have hle := Nat.le_of_not_lt hlt
    rw [choose, if_neg hlt, running_eq_choose, rounds]
    obtain hsmall | hlarge := Nat.le_total k (n - k)
    · rw [Nat.min_eq_left hsmall]
    · rw [Nat.min_eq_right hlarge, Nat.choose_symm hle]

end FlatXor.Binomial
