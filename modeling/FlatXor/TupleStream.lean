import FlatXor.Binomial

/-!
# Increasing tuples in lexicographic order

The strictly increasing tuples of a given size over the numbers below a bound
are produced one at a time, each from the one before it, so that a few of them
can be had even when the bound is huge. The next tuple is found slot by slot from the
left, or by the indices of the slots in 64-bit words. What a tuple lacks to the bound
gets less with each step, so that every stream ends.
-/
namespace FlatXor

/-- The tuple after `l` among the increasing tuples over the numbers below `n`:
the rightmost slot that has room moves up by one, and the slots after it follow
consecutively. There is none when no slot has room. -/
def nextTuple? (n : Nat) : List Nat → Option (List Nat)
  | [] => none
  | a :: l =>
    match nextTuple? n l with
    | some l => some (a :: l)
    | none => if a + 1 + l.length < n then some (List.range' (a + 1) (l.length + 1)) else none

/-- Whether the slot `i` can move up and leave room for those after it. -/
def hasRoom (n : Nat) (l : List Nat) (i : Nat) : Except IndexFault Bool := do
  let a ← entryAt l i
  let spare ← subIndex n l.length
  let limit ← addIndex spare i
  return decide (a < limit)

/-- The rightmost of the first `k` slots that has room. -/
def rightmostRoom (n : Nat) (l : List Nat) : Nat → Except IndexFault (Option Nat)
  | 0 => .ok none
  | i + 1 => do
    if ← hasRoom n l i then
      return some i
    else
      rightmostRoom n l i

/-- Each of `count` slots from `i` on becomes one more than the slot before it. -/
def followOn : Nat → Nat → List Nat → Except IndexFault (List Nat)
  | 0, _, l => .ok l
  | count + 1, i, l => do
    let a ← entryAt l (← subIndex i 1)
    let l ← setEntry l i (← addIndex a 1)
    followOn count (i + 1) l

/-- The tuple after `l`, found by the indices of its slots. -/
def nextByIndex (n : Nat) (l : List Nat) : Except IndexFault (Option (List Nat)) := do
  match ← rightmostRoom n l l.length with
  | none => return none
  | some i =>
    let moved ← setEntry l i (← addIndex (← entryAt l i) 1)
    let after ← addIndex i 1
    some <$> followOn (l.length - after) after moved

/-- The tuples that are still to come: the first of them, if any, and the bound. -/
structure TupleStream where
  bound : Nat
  pending : Option (List Nat)
  deriving Repr, DecidableEq

namespace TupleStream

/-- All increasing tuples of the given size over the numbers below `n`. -/
def start (n size : Nat) : TupleStream :=
  ⟨n, if size ≤ n then some (List.range size) else none⟩

def next? (s : TupleStream) : Option (List Nat × TupleStream) :=
  s.pending.map fun l => (l, ⟨s.bound, nextTuple? s.bound l⟩)

/-- The number whose digits are those of `high` and then what each entry lacks to the bound. -/
def gapsFrom (n high : Nat) : List Nat → Nat
  | [] => high
  | a :: l => gapsFrom n (high * (n + 1) + (n - a)) l

/-- A bound on the number of calls that have an answer. -/
def remaining (s : TupleStream) : Nat := s.pending.elim 0 fun l => gapsFrom s.bound 0 l + 1

/-- Leaves out the first `k` tuples, or all when there are fewer. -/
def drop : Nat → TupleStream → TupleStream
  | 0, s => s
  | k + 1, s =>
    match s.next? with
    | some (_, s) => drop k s
    | none => s

/-- Appends the first `k` tuples to those collected, latest first, in `acc`. -/
def takeOnto (acc : List (List Nat)) : Nat → TupleStream → List (List Nat)
  | 0, _ => acc.reverse
  | k + 1, s =>
    match s.next? with
    | some (l, s) => takeOnto (l :: acc) k s
    | none => acc.reverse

/-- The first `k` tuples, or all when there are fewer. -/
def take (k : Nat) (s : TupleStream) : List (List Nat) := takeOnto [] k s

/-- A smaller number stays smaller whatever digits come after. -/
theorem gapsFrom_lt {n high high' : Nat} {l l' : List Nat} (hlength : l.length = l'.length)
    (h : high < high') : gapsFrom n high l < gapsFrom n high' l' := by
  induction l generalizing high high' l' with
  | nil =>
    obtain rfl := List.length_eq_zero_iff.mp hlength.symm
    exact h
  | cons a l ih =>
    obtain ⟨a', l', rfl⟩ := List.exists_cons_of_length_eq_add_one hlength.symm
    have htail : l.length = l'.length := by simpa using hlength
    rw [gapsFrom, gapsFrom]
    refine ih htail ?_
    have hshift : (high + 1) * (n + 1) ≤ high' * (n + 1) := Nat.mul_le_mul_right _ h
    rw [Nat.succ_mul] at hshift
    omega

/-- The next tuple lacks less: the digit of the slot that moves up falls. -/
theorem gapsFrom_nextTuple? {n : Nat} {l l' : List Nat} (h : nextTuple? n l = some l')
    (high : Nat) : gapsFrom n high l' < gapsFrom n high l := by
  induction l generalizing l' high with
  | nil => cases h
  | cons a l ih =>
    rw [nextTuple?] at h
    cases htail : nextTuple? n l with
    | some tail =>
      rw [htail] at h
      obtain rfl := Option.some.inj h
      exact ih htail _
    | none =>
      simp only [htail, Option.ite_none_right_eq_some, Option.some.injEq] at h
      obtain ⟨hroom, rfl⟩ := h
      rw [List.range'_succ, gapsFrom, gapsFrom]
      exact gapsFrom_lt List.length_range' (by omega)

theorem remaining_next? {s next : TupleStream} {l : List Nat} (h : s.next? = some (l, next)) :
    next.remaining < s.remaining := by
  obtain ⟨first, hpending, hnext⟩ := Option.map_eq_some_iff.mp h
  cases hnext
  rw [remaining, remaining, hpending]
  cases hafter : nextTuple? s.bound l with
  | none => exact Nat.succ_pos _
  | some l' => exact Nat.succ_lt_succ (gapsFrom_nextTuple? hafter 0)

theorem takeOnto_eq_append (acc : List (List Nat)) (k : Nat) (s : TupleStream) :
    takeOnto acc k s = acc.reverse ++ take k s := by
  induction k generalizing acc s with
  | zero => simp [takeOnto, take]
  | succ k ih =>
    simp only [take, takeOnto]
    cases s.next? with
    | none => simp
    | some r => simp only [ih (r.1 :: acc), ih [r.1]]; simp

@[simp] theorem take_zero (s : TupleStream) : s.take 0 = [] := rfl

theorem take_succ (k : Nat) (s : TupleStream) :
    s.take (k + 1) =
      match s.next? with
      | some (l, s) => l :: s.take k
      | none => [] := by
  simp only [take, takeOnto]
  cases s.next? with
  | none => rfl
  | some r => simp [takeOnto_eq_append]

end TupleStream

/-- The increasing tuples of the given size over the numbers below `n`, in
lexicographic order. There are as many as subsets of that size. -/
def tuples (n size : Nat) : List (List Nat) :=
  (TupleStream.start n size).take (Binomial.choose n size)

end FlatXor
