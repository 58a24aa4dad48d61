import FlatXor.Mask
import FlatXor.RangeFault

/-!
# Data sets

The data elements that feed one parity form a set of positions below a fixed
capacity, which is often more than 64. The set is kept as words, the lowest
positions first: position `i` is bit `i % 64` of word `i / 64`. There are just as
many words as the capacity asks for, and no bit at or above the capacity is set,
so that equal capacities and equal members make equal values.
-/
namespace FlatXor

/-- Is `i` a position of the words, lowest word first? -/
def hasBit (words : Array UInt64) (i : Nat) : Bool := Mask.has (words.getD (i / 64) 0) (i % 64)

theorem hasBit_modify_or (words : Array UInt64) {i : Nat} (hi : i / 64 < words.size) (j : Nat) :
    hasBit (words.modify (i / 64) (· ||| Mask.single (i % 64))) j =
      (decide (i = j) || hasBit words j) := by
  have hmod : i % 64 < 64 := Nat.mod_lt _ (by omega)
  simp only [hasBit, Array.getD_eq_getD_getElem?, Array.getElem?_modify]
  by_cases hw : i / 64 = j / 64
  · have hij : (i % 64 = j % 64) ↔ i = j := by omega
    rw [if_pos hw, ← hw, Array.getElem?_eq_getElem hi]
    simp [Mask.has_single hmod, hij, Bool.or_comm]
  · have hij : ¬ i = j := fun h => hw (by rw [h])
    simp [hw, hij]

structure DataSet where
  capacity : Nat
  words : Array UInt64
  size_words : words.size = (capacity + 63) / 64
  lt_capacity : ∀ i, hasBit words i = true → i < capacity
  deriving DecidableEq

namespace DataSet

instance : Membership Nat DataSet := ⟨fun s i => hasBit s.words i = true⟩

instance (i : Nat) (s : DataSet) : Decidable (i ∈ s) :=
  inferInstanceAs (Decidable (hasBit s.words i = true))

/-- The empty set with room for the positions below `capacity`. -/
def empty (capacity : Nat) : DataSet where
  capacity := capacity
  words := Array.replicate ((capacity + 63) / 64) 0
  size_words := Array.size_replicate
  lt_capacity := by
    intro i h
    simp only [hasBit, Array.getD_eq_getD_getElem?, Array.getElem?_replicate] at h
    split at h <;> simp at h

/-- Adds a position; one that the set has no room for is ignored. -/
def insert (s : DataSet) (i : Nat) : DataSet :=
  if h : i < s.capacity then
    { s with
      words := s.words.modify (i / 64) (· ||| Mask.single (i % 64))
      size_words := by rw [Array.size_modify, s.size_words]
      lt_capacity := by
        intro j hj
        rw [hasBit_modify_or _ (by rw [s.size_words]; omega), Bool.or_eq_true,
          decide_eq_true_eq] at hj
        rcases hj with rfl | hj
        · exact h
        · exact s.lt_capacity j hj }
  else s

/-- Adds a position, or refuses one that the set has no room for. -/
def insertChecked (s : DataSet) (i : Nat) : Except RangeFault DataSet :=
  if i < s.capacity then .ok (s.insert i) else .error (.dataIndex i s.capacity)

/-- The set after an attempt to add a position, and the fault if it was refused. -/
def attempt (s : DataSet) (i : Nat) : DataSet × Option RangeFault :=
  match s.insertChecked i with
  | .ok t => (t, none)
  | .error fault => (s, some fault)

/-- Attempts to add the positions one after the other, with what came of each. -/
def attempts (s : DataSet) : List Nat → DataSet × List (Option RangeFault)
  | [] => (s, [])
  | i :: l =>
    let first := s.attempt i
    let others := first.1.attempts l
    (others.1, first.2 :: others.2)

/-- Adds positions from the left up to the first that the set has no room for.
The positions before that one stay in the set. -/
def insertWhile (s : DataSet) : List Nat → DataSet × Option RangeFault
  | [] => (s, none)
  | i :: l =>
    match s.insertChecked i with
    | .ok s => s.insertWhile l
    | .error fault => (s, some fault)

def contains (s : DataSet) (i : Nat) : Bool := decide (i ∈ s)

/-- Membership, refused for a position that the set has no room for. -/
def containsChecked (s : DataSet) (i : Nat) : Except RangeFault Bool :=
  if i < s.capacity then .ok (s.contains i) else .error (.dataIndex i s.capacity)

/-- The number of members. -/
def size (s : DataSet) : Nat := (s.words.toList.map Mask.count).foldr (· + ·) 0

def isEmpty (s : DataSet) : Bool := s.words.all (· == 0)

/-- The members in ascending order. -/
def toList (s : DataSet) : List Nat :=
  s.words.toList.zipIdx.flatMap fun (w, k) => (Mask.positions w).map (64 * k + ·)

/-- The value of words in base `2 ^ 64`, lowest word first. -/
def valueOf : List UInt64 → Nat
  | [] => 0
  | w :: l => w.toNat + UInt64.size * valueOf l

/-- The two halves of a word, the lower one first. -/
def halves (w : UInt64) : List UInt32 := [w.toUInt32, (w >>> 32).toUInt32]

/-- The number whose binary digits are the set: the sum of `2 ^ i` over the members. -/
def toNat (s : DataSet) : Nat := valueOf s.words.toList

/-- The number as one word, when every member is below 64. -/
def toWord? (s : DataSet) : Option UInt64 :=
  match s.words.toList with
  | [] => some 0
  | low :: rest => if rest.all (· == 0) then some low else none

/-- The number in decimal. -/
def toDecimal (s : DataSet) : String := Nat.repr s.toNat

theorem mem_def {i : Nat} {s : DataSet} : i ∈ s ↔ hasBit s.words i = true := Iff.rfl

theorem lt_of_mem {i : Nat} {s : DataSet} (h : i ∈ s) : i < s.capacity := s.lt_capacity i h

@[simp] theorem capacity_empty (capacity : Nat) : (empty capacity).capacity = capacity := rfl

@[simp] theorem not_mem_empty (capacity i : Nat) : ¬ i ∈ empty capacity := by
  intro h
  simp only [mem_def, empty, hasBit, Array.getD_eq_getD_getElem?, Array.getElem?_replicate] at h
  split at h <;> simp at h

@[simp] theorem capacity_insert (s : DataSet) (i : Nat) : (s.insert i).capacity = s.capacity := by
  unfold insert
  split <;> rfl

theorem mem_insert {s : DataSet} {i j : Nat} :
    j ∈ s.insert i ↔ (j = i ∧ i < s.capacity) ∨ j ∈ s := by
  unfold insert
  split
  · next h =>
    rw [mem_def, hasBit_modify_or _ (by rw [s.size_words]; omega), Bool.or_eq_true,
      decide_eq_true_eq, ← mem_def]
    exact or_congr_left ⟨fun he => ⟨he.symm, h⟩, fun he => he.1.symm⟩
  · next h => simp [h]

end DataSet

end FlatXor
