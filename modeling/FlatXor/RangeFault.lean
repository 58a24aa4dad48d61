/-!
# Indices and counts outside their range

An operation that is given an index or a count which its set or table cannot
hold changes nothing and answers one of these faults.
-/
namespace FlatXor

inductive RangeFault where
  /-- A parity index of 64 or more. -/
  | parityIndex (index : Nat)
  /-- More parities than a parity set can hold. -/
  | parityCount (count limit : Nat)
  /-- A data index that is not below the capacity of its set. -/
  | dataIndex (index capacity : Nat)
  /-- A parity for which a table has no row. -/
  | row (index rows : Nat)
  deriving Repr, DecidableEq

namespace RangeFault

def message : RangeFault → String
  | parityIndex index => s!"ParityIndex out of range: {index}"
  | parityCount count limit => s!"Parity count out of range: {count} > {limit}"
  | dataIndex index capacity => s!"DataIndex out of range: {index} >= {capacity}"
  | row index rows => s!"index out of bounds: the len is {rows} but the index is {index}"

end RangeFault

end FlatXor
