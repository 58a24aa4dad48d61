import FlatXor.SearchState

/-!
# Statistics of a search

A search counts its steps by kind, and notes how deep its stack of selections
has been.
-/
namespace FlatXor

structure Statistics where
  /-- Steps of any kind. -/
  steps : Nat
  /-- Selections of a candidate inside the needed parities. -/
  covers : Nat
  /-- Selections of a candidate around the needed parities. -/
  rollovers : Nat
  /-- Selections that were taken back. -/
  backtracks : Nat
  /-- The largest number of selections in force after a step. -/
  peakUsed : Nat
  deriving Repr, DecidableEq

namespace Statistics

def zero : Statistics := ⟨0, 0, 0, 0, 0⟩

/-- Counts a step. -/
def countStep (s : Statistics) : Statistics := { s with steps := s.steps + 1 }

/-- Counts what a step did. -/
def countMove (s : Statistics) : Move → Statistics
  | .cover _ => { s with covers := s.covers + 1 }
  | .rollover _ => { s with rollovers := s.rollovers + 1 }
  | .backtrack _ => { s with backtracks := s.backtracks + 1 }

/-- Notes the number of selections in force. -/
def recordDepth (s : Statistics) (depth : Nat) : Statistics :=
  { s with peakUsed := max s.peakUsed depth }

def render (s : Statistics) : String :=
  s!"steps={s.steps} cover={s.covers} rollover={s.rollovers} backtracks={s.backtracks} " ++
    s!"peak_used={s.peakUsed}"

end Statistics

end FlatXor
