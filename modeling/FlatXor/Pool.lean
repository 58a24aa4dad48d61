import FlatXor.ParitySet

/-!
# The pool and the stack of selections

A search moves candidates between two places. The pool is scanned from the
front, gives up the first candidate that qualifies, and takes candidates back at
its end. The stack holds the selections in force and gives up the latest.
-/
namespace FlatXor

/-- Candidates in the order in which they are scanned. -/
abbrev Pool := List ParitySet

namespace Pool

/-- The first candidate that qualifies, and the pool without it. The others keep
their order. -/
def takeFirst? (qualifies : ParitySet → Bool) (pool : Pool) : Option (ParitySet × Pool) :=
  (pool.find? qualifies).map fun c => (c, pool.eraseP qualifies)

def pushBack (pool : Pool) (c : ParitySet) : Pool := pool ++ [c]

theorem takeFirst?_eq_none_iff {qualifies : ParitySet → Bool} {pool : Pool} :
    takeFirst? qualifies pool = none ↔ ∀ c ∈ pool, ¬ qualifies c = true := by
  simp [takeFirst?]

/-- What was taken qualifies, and nothing before it did. -/
theorem takeFirst?_eq_some_iff {qualifies : ParitySet → Bool} {pool rest : Pool} {c : ParitySet} :
    takeFirst? qualifies pool = some (c, rest) ↔
      qualifies c = true ∧ ∃ front back, (∀ d ∈ front, ¬ qualifies d = true) ∧
        pool = front ++ c :: back ∧ rest = front ++ back := by
  simp only [takeFirst?, Option.map_eq_some_iff, Prod.mk.injEq]
  constructor
  · rintro ⟨d, hd, rfl, rfl⟩
    obtain ⟨hq, front, back, rfl, hfront⟩ := List.find?_eq_some_iff_append.1 hd
    have hfront : ∀ d ∈ front, ¬ qualifies d = true := fun d h => by simpa using hfront d h
    exact ⟨hq, front, back, hfront, rfl, by
      rw [List.eraseP_append_right _ hfront, List.eraseP_cons_of_pos hq]⟩
  · rintro ⟨hq, front, back, hfront, rfl, rfl⟩
    refine ⟨c, List.find?_eq_some_iff_append.2 ⟨hq, front, back, rfl, ?_⟩, rfl, ?_⟩
    · exact fun d h => by simpa using hfront d h
    · rw [List.eraseP_append_right _ hfront, List.eraseP_cons_of_pos hq]

end Pool

/-- Selections, latest first. -/
abbrev UsedStack := List ParitySet

namespace UsedStack

def push (used : UsedStack) (c : ParitySet) : UsedStack := c :: used

/-- The latest selection, and the stack without it. -/
def pop? : UsedStack → Option (ParitySet × UsedStack)
  | [] => none
  | c :: used => some (c, used)

/-- The selections from the oldest to the latest. -/
def oldestFirst (used : UsedStack) : List ParitySet := used.reverse

@[simp] theorem oldestFirst_push (used : UsedStack) (c : ParitySet) :
    (used.push c).oldestFirst = used.oldestFirst ++ [c] := List.reverse_cons

end UsedStack

end FlatXor
