import FlatXor.Binomial
import FlatXor.ParitySet
import FlatXor.TupleStream

/-!
# Parameters of a code

A code is described by its number of parities `m` and by the number `t` of
parities that each data element feeds, its arity. The candidates for data
elements are all `t`-element sets of parities, in lexicographic order of their
members. The search for a code scans them in that order, so the order decides
its whole course.
-/
namespace FlatXor

/-- The largest number of fragments of a failure table. -/
def maxFragments : Nat := 64

/-- The width of a row of a failure table, and so the largest failure depth. -/
def failureWidth : Nat := 4

/-- Parameters that are refused before any work is done. -/
inductive ParamsError where
  | unsupportedArity (arity : Nat)
  | parityCountOutOfRange (parities limit : Nat)
  | fragmentCountOutOfRange (fragments limit : Nat)
  | failureDepthOutOfRange (depth limit : Nat)
  /-- A candidate of the wrong weight, or with a parity that the code lacks. -/
  | invalidCandidate (candidate : ParitySet) (arity parities : Nat)
  deriving Repr, DecidableEq

namespace ParamsError

/-- The bits of a set as a hexadecimal number. -/
def hex (s : ParitySet) : String := "0x" ++ String.ofList (Nat.toDigits 16 s.bits.toNat)

def message : ParamsError → String
  | unsupportedArity arity => s!"unsupported equation arity {arity}: must be 2 or 3"
  | parityCountOutOfRange parities limit =>
    s!"parity count {parities} out of range: must be 1..={limit}"
  | fragmentCountOutOfRange fragments limit =>
    s!"fragment count {fragments} out of range: must be 1..={limit}"
  | failureDepthOutOfRange depth limit =>
    s!"failure depth {depth} out of range: must be 1..={limit}"
  | invalidCandidate candidate arity parities =>
    s!"candidate {hex candidate} is not a {arity}-combination of {parities} parities"

end ParamsError

/-- The number of parities that each data element feeds. -/
inductive Arity where
  | two
  | three
  deriving Repr, DecidableEq

namespace Arity

def toNat : Arity → Nat
  | two => 2
  | three => 3

def ofCount : Nat → Except ParamsError Arity
  | 2 => .ok two
  | 3 => .ok three
  | n => .error (.unsupportedArity n)

/-- The Hamming distance of the codes of this arity. -/
def hammingDistance (t : Arity) : Nat := t.toNat + 1

end Arity

structure CodeParams where
  parities : Nat
  arity : Arity
  parities_pos : 0 < parities
  parities_le : parities ≤ maxParities
  deriving DecidableEq

namespace CodeParams

/-- Checks the arity first and then the number of parities. -/
def ofCounts (parities arity : Nat) : Except ParamsError CodeParams :=
  match Arity.ofCount arity with
  | .error e => .error e
  | .ok t =>
    if h : 0 < parities ∧ parities ≤ maxParities then .ok ⟨parities, t, h.1, h.2⟩
    else .error (.parityCountOutOfRange parities maxParities)

/-- The number of parities that each data element feeds. -/
def weight (p : CodeParams) : Nat := p.arity.toNat

/-- The number of candidates. -/
def candidateCount (p : CodeParams) : Nat := Binomial.choose p.parities p.weight

/-- All parities of the code. -/
def full (p : CodeParams) : ParitySet := .below p.parities

def hammingDistance (p : CodeParams) : Nat := p.arity.hammingDistance

/-- The pool size at which a search of all candidates ends: one candidate for
each parity, or all candidates when there are fewer. -/
def targetPoolSize (p : CodeParams) : Nat := min p.parities p.candidateCount

def render (p : CodeParams) : String := s!"m={p.parities} t={p.weight}"

/-- The parity set with the given members, all below 64. -/
def candidateOf (l : List Nat) : ParitySet := .ofList (l.filterMap ParityIndex.ofNat?)

/-- All candidates, in lexicographic order of their members. -/
def candidates (p : CodeParams) : List ParitySet := (tuples p.parities p.weight).map candidateOf

/-- Can the set be a data element of the code? -/
def admits (p : CodeParams) (c : ParitySet) : Bool := c.size == p.weight && c.isSubset p.full

theorem mem_full {p : CodeParams} {i : Nat} : i ∈ p.full ↔ i < p.parities :=
  ParitySet.mem_below p.parities_le

theorem admits_iff {p : CodeParams} {c : ParitySet} :
    p.admits c = true ↔ c.size = p.weight ∧ ∀ i, i ∈ c → i < p.parities := by
  simp [admits, ParitySet.isSubset_iff, mem_full]

end CodeParams

end FlatXor
