/-!
# Detection of oscillation

A process whose next state depends on its state alone runs in a circle as soon
as one state recurs. The detector keeps one snapshot and compares every state
with it. When the distance from the snapshot has grown to the next power of two
the snapshot moves up to the present state. So the distance comes to exceed any
period, the snapshot comes to lie on the circle, and the first match then tells
the period exactly.
-/
namespace FlatXor

structure Detector (α : Type) where
  snapshot : α
  /-- The distance at which the snapshot is replaced. -/
  power : Nat
  /-- The number of states observed since the snapshot was taken. -/
  distance : Nat
  deriving Repr, DecidableEq

namespace Detector

/-- Starts from the state before the first step. -/
def start {α : Type} (initial : α) : Detector α := ⟨initial, 1, 0⟩

/-- Observes the state after a step, and reports the distance to the snapshot
when the two are equal. -/
def observe {α : Type} [DecidableEq α] (d : Detector α) (state : α) : Option Nat × Detector α :=
  if state = d.snapshot then (some (d.distance + 1), { d with distance := d.distance + 1 })
  else if d.distance + 1 = d.power then (none, ⟨state, 2 * d.power, 0⟩)
  else (none, { d with distance := d.distance + 1 })

/-- The reports on a sequence of states, observed one after the other. -/
def observeAll {α : Type} [DecidableEq α] (d : Detector α) : List α → List (Option Nat)
  | [] => []
  | state :: states => (d.observe state).1 :: (d.observe state).2.observeAll states

end Detector

end FlatXor
