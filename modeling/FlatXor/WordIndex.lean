/-!
# Indices in 64-bit words

Sums, differences and products of indices where each of them has to fit a 64-bit word, and
lists that are read and written by index. What does not fit, or is not there, is a fault.
-/
namespace FlatXor

/-- What can stop a computation on indices. -/
inductive IndexFault where
  | overflow
  | underflow
  | outOfBounds
  deriving Repr, DecidableEq

/-- Words are the numbers below this one, which is `2 ^ 64`. -/
def wordLimit : Nat := UInt64.size

def addIndex (a b : Nat) : Except IndexFault Nat :=
  if a + b < wordLimit then .ok (a + b) else .error .overflow

def subIndex (a b : Nat) : Except IndexFault Nat :=
  if b ≤ a then .ok (a - b) else .error .underflow

def mulIndex (a b : Nat) : Except IndexFault Nat :=
  if a * b < wordLimit then .ok (a * b) else .error .overflow

def entryAt (l : List Nat) (i : Nat) : Except IndexFault Nat :=
  match l[i]? with
  | some a => .ok a
  | none => .error .outOfBounds

def setEntry (l : List Nat) (i a : Nat) : Except IndexFault (List Nat) :=
  if i < l.length then .ok (l.set i a) else .error .outOfBounds

theorem addIndex_of_lt {a b : Nat} (h : a + b < wordLimit) : addIndex a b = .ok (a + b) := if_pos h

theorem subIndex_of_le {a b : Nat} (h : b ≤ a) : subIndex a b = .ok (a - b) := if_pos h

theorem entryAt_of_lt {l : List Nat} {i : Nat} (h : i < l.length) : entryAt l i = .ok l[i] := by
  rw [entryAt, List.getElem?_eq_getElem h]

theorem setEntry_of_lt {l : List Nat} {i : Nat} (h : i < l.length) (a : Nat) :
    setEntry l i a = .ok (l.set i a) := if_pos h

end FlatXor
