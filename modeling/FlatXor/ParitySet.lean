import FlatXor.Mask
import FlatXor.RangeFault

/-!
# Parity sets

A code numbers its parities from 0, and there are at most 64 of them, so a set
of parities is one word. Candidates for data elements, and the parities that a
search still needs, are parity sets. Membership `i ∈ s` is the view through
which the operations are described.
-/
namespace FlatXor

/-- The largest number of parities. -/
def maxParities : Nat := 64

/-- The number of a parity. -/
abbrev ParityIndex := Fin maxParities

namespace ParityIndex

def ofNat? (n : Nat) : Option ParityIndex :=
  if h : n < maxParities then some ⟨n, h⟩ else none

/-- As `ofNat?`, with the fault that refuses the number. -/
def ofNat (n : Nat) : Except RangeFault ParityIndex :=
  match ofNat? n with
  | some i => .ok i
  | none => .error (.parityIndex n)

@[simp] theorem ofNat?_val (i : ParityIndex) : ofNat? i.val = some i := by
  simp [ofNat?, i.isLt]

end ParityIndex

/-- A set of parities; bit `i` of the word stands for parity `i`. -/
structure ParitySet where
  bits : UInt64
  deriving Repr, DecidableEq

namespace ParitySet

instance : Membership Nat ParitySet := ⟨fun s i => Mask.has s.bits i = true⟩

instance (i : Nat) (s : ParitySet) : Decidable (i ∈ s) :=
  inferInstanceAs (Decidable (Mask.has s.bits i = true))

/-- The empty set is the one that a fresh value holds. -/
instance : Inhabited ParitySet := ⟨⟨0⟩⟩

/-- Sets are ordered by their words, read as numbers. -/
instance : Ord ParitySet := ⟨fun a b => compareOfLessAndEq a.bits b.bits⟩

def empty : ParitySet := ⟨0⟩

/-- The set of the parities below `n`, for `n ≤ 64`. -/
def below (n : Nat) : ParitySet := ⟨UInt64.ofNat ((1 <<< n) - 1)⟩

/-- The parities below `n`, refused when there are more than the word holds. -/
def full (n : Nat) : Except RangeFault ParitySet :=
  if n ≤ maxParities then .ok (below n) else .error (.parityCount n maxParities)

def insert (s : ParitySet) (i : ParityIndex) : ParitySet := ⟨s.bits ||| Mask.single i⟩

def erase (s : ParitySet) (i : ParityIndex) : ParitySet := ⟨s.bits &&& ~~~Mask.single i⟩

def ofList (l : List ParityIndex) : ParitySet := l.foldl insert empty

def contains (s : ParitySet) (i : Nat) : Bool := decide (i ∈ s)

def inter (a b : ParitySet) : ParitySet := ⟨a.bits &&& b.bits⟩

def union (a b : ParitySet) : ParitySet := ⟨a.bits ||| b.bits⟩

/-- The parities of exactly one of the two sets. -/
def symmDiff (a b : ParitySet) : ParitySet := ⟨a.bits ^^^ b.bits⟩

/-- The parities of `a` that `b` lacks. -/
def diff (a b : ParitySet) : ParitySet := ⟨a.bits &&& ~~~b.bits⟩

/-- Is every parity of `a` one of `b`? -/
def isSubset (a b : ParitySet) : Bool := (a.bits &&& b.bits) == a.bits

/-- The number of parities in the set. -/
def size (s : ParitySet) : Nat := Mask.count s.bits

def isEmpty (s : ParitySet) : Bool := s.bits == 0

/-- The parities in ascending order. -/
def toList (s : ParitySet) : List Nat := Mask.positions s.bits

/-- The members as a scan of the word comes upon them, each checked to be an index. -/
def indices (s : ParitySet) : Except RangeFault (List ParityIndex) :=
  (Mask.scan s.bits).mapM ParityIndex.ofNat

/-- The set itself when it has exactly `weight` parities. -/
def withWeight? (s : ParitySet) (weight : Nat) : Option ParitySet :=
  if s.size = weight then some s else none

/-- Members in braces, separated by commas. -/
def render (s : ParitySet) : String :=
  "\x7b" ++ ", ".intercalate (s.toList.map Nat.repr) ++ "\x7d"

theorem mem_def {i : Nat} {s : ParitySet} : i ∈ s ↔ Mask.has s.bits i = true := Iff.rfl

theorem lt_of_mem {i : Nat} {s : ParitySet} (h : i ∈ s) : i < maxParities := Mask.lt_of_has h

/-- Sets with the same members are equal. -/
theorem ext_mem {a b : ParitySet} (h : ∀ i, i ∈ a ↔ i ∈ b) : a = b := by
  cases a; cases b
  exact congrArg mk (Mask.ext_has fun i => Bool.eq_iff_iff.2 (h i))

@[simp] theorem not_mem_empty (i : Nat) : ¬ i ∈ empty := by
  rw [mem_def, empty, Mask.has_zero]
  exact Bool.false_ne_true

theorem mem_below {n : Nat} (hn : n ≤ maxParities) {i : Nat} : i ∈ below n ↔ i < n := by
  have hlt : 2 ^ n - 1 < 2 ^ 64 :=
    Nat.lt_of_lt_of_le (Nat.sub_lt (Nat.two_pow_pos n) (by omega))
      (Nat.pow_le_pow_right (by omega) hn)
  rw [mem_def, below, Nat.one_shiftLeft, Mask.has, UInt64.toNat_ofNat', Nat.mod_eq_of_lt hlt,
    Nat.testBit_two_pow_sub_one, decide_eq_true_iff]

@[simp] theorem mem_insert {s : ParitySet} {i : ParityIndex} {j : Nat} :
    j ∈ s.insert i ↔ j = i.val ∨ j ∈ s := by
  simp only [mem_def, insert, Mask.has_or, Mask.has_single i.isLt, Bool.or_eq_true,
    decide_eq_true_eq]
  exact ⟨fun h => h.symm.imp_left Eq.symm, fun h => h.symm.imp_right Eq.symm⟩

@[simp] theorem mem_erase {s : ParitySet} {i : ParityIndex} {j : Nat} :
    j ∈ s.erase i ↔ j ≠ i.val ∧ j ∈ s := by
  simp only [mem_def, erase, Mask.has_and, Mask.has_complement, Mask.has_single i.isLt,
    Bool.and_eq_true, decide_eq_true_eq, Bool.not_eq_true', decide_eq_false_iff_not]
  exact ⟨fun h => ⟨fun he => h.2.2 he.symm, h.1⟩,
    fun h => ⟨h.2, Mask.lt_of_has h.2, fun he => h.1 he.symm⟩⟩

@[simp] theorem mem_inter {a b : ParitySet} {i : Nat} : i ∈ a.inter b ↔ i ∈ a ∧ i ∈ b := by
  simp [mem_def, inter]

@[simp] theorem mem_union {a b : ParitySet} {i : Nat} : i ∈ a.union b ↔ i ∈ a ∨ i ∈ b := by
  simp [mem_def, union]

@[simp] theorem mem_symmDiff {a b : ParitySet} {i : Nat} :
    i ∈ a.symmDiff b ↔ (i ∈ a ∧ ¬ i ∈ b) ∨ (i ∈ b ∧ ¬ i ∈ a) := by
  simp only [mem_def, symmDiff, Mask.has_xor]
  cases Mask.has a.bits i <;> cases Mask.has b.bits i <;> simp

@[simp] theorem mem_diff {a b : ParitySet} {i : Nat} : i ∈ a.diff b ↔ i ∈ a ∧ ¬ i ∈ b := by
  simp only [mem_def, diff, Mask.has_and, Mask.has_complement, Bool.and_eq_true,
    decide_eq_true_eq, Bool.not_eq_true', Bool.not_eq_true]
  exact ⟨fun h => ⟨h.1, h.2.2⟩, fun h => ⟨h.1, Mask.lt_of_has h.1, h.2⟩⟩

theorem isSubset_iff {a b : ParitySet} : a.isSubset b = true ↔ ∀ i, i ∈ a → i ∈ b := by
  simp only [isSubset, beq_iff_eq]
  constructor
  · intro h i hi
    rw [mem_def, ← h, Mask.has_and, Bool.and_eq_true] at hi
    exact hi.2
  · intro h
    refine Mask.ext_has fun i => ?_
    rw [Mask.has_and]
    cases ha : Mask.has a.bits i with
    | false => rfl
    | true => rw [Bool.true_and]; exact h i ha

@[simp] theorem mem_toList {s : ParitySet} {i : Nat} : i ∈ s.toList ↔ i ∈ s := Mask.mem_positions

theorem pairwise_toList (s : ParitySet) : s.toList.Pairwise (· < ·) := Mask.pairwise_positions _

@[simp] theorem length_toList (s : ParitySet) : s.toList.length = s.size :=
  (Mask.count_eq_length _).symm

theorem mem_ofList {l : List ParityIndex} {j : Nat} : j ∈ ofList l ↔ ∃ i ∈ l, i.val = j := by
  suffices h : ∀ s : ParitySet, j ∈ l.foldl insert s ↔ j ∈ s ∨ ∃ i ∈ l, i.val = j by
    have h := h empty
    rw [ofList, h]
    simp
  induction l with
  | nil => simp
  | cons i l ih =>
    intro s
    rw [List.foldl_cons, ih]
    simp only [mem_insert, List.mem_cons, exists_eq_or_imp, eq_comm (a := j)]
    exact or_assoc.trans (or_left_comm)

end ParitySet

end FlatXor
