import FlatXor.WordIndex

/-!
# Binomial coefficients

The number of `k`-element subsets of an `n`-element set is built up as a running
product: after `i` rounds the running value is the number of `i`-element subsets,
so the division of each round is exact. The smaller of `k` and `n - k` is the
number of rounds, which keeps the products small. The same computation in 64-bit
words fails where a product does not fit.
-/
namespace FlatXor.Binomial

/-- The running value after `i` rounds. -/
def running (n : Nat) : Nat → Nat
  | 0 => 1
  | i + 1 => running n i * (n - i) / (i + 1)

/-- The number of rounds for `k`-element subsets, for `k ≤ n`. -/
def rounds (n k : Nat) : Nat := min k (n - k)

/-- The number of `k`-element subsets of an `n`-element set. -/
def choose (n k : Nat) : Nat := if n < k then 0 else running n (rounds n k)

/-- The running value after `i` rounds, in words. -/
def runningInWords (n : Nat) : Nat → Except IndexFault Nat
  | 0 => .ok 1
  | i + 1 => do
    let value ← runningInWords n i
    let product ← mulIndex value (← subIndex n i)
    return product / (← addIndex i 1)

/-- The number of `k`-element subsets of an `n`-element set, in words. -/
def chooseInWords (n k : Nat) : Except IndexFault Nat := do
  if n < k then
    return 0
  let others ← subIndex n k
  runningInWords n (if others < k then others else k)

@[simp] theorem running_zero (n : Nat) : running n 0 = 1 := rfl

theorem running_succ (n i : Nat) : running n (i + 1) = running n i * (n - i) / (i + 1) := rfl

theorem choose_of_lt {n k : Nat} (h : n < k) : choose n k = 0 := if_pos h

end FlatXor.Binomial
