import FlatXor.CodeFamily

/-!
# Tables as C declarations

Each table becomes two array definitions, one for the rows and one for the
columns, whose entries are the sets written as numbers. A pair of index arrays can
follow the last table, with a slot for each size up to the largest: the slot names
the array of the code of that size, or is 0 when there is none.
-/
namespace FlatXor

/-- How the arrays are declared. -/
inductive Declaration where
  /-- As plain integers. -/
  | plain
  /-- As unsigned integers local to the file. -/
  | static
  deriving Repr, DecidableEq

namespace Declaration

def keyword : Declaration → String
  | plain => "int"
  | static => "static unsigned int"

end Declaration

/-- The two arrays of a table. -/
inductive ArrayKind where
  /-- One entry for each parity. -/
  | parity
  /-- One entry for each data element. -/
  | data
  deriving Repr, DecidableEq

namespace ArrayKind

def label : ArrayKind → String
  | parity => "parity"
  | data => "data"

end ArrayKind

/-- An initializer list. -/
def braced (items : List String) : String := "\x7b " ++ ", ".intercalate items ++ " \x7d"

namespace CodeTable

def arrayName (table : CodeTable) (kind : ArrayKind) : String :=
  s!"g_{table.name}_hd_code_{kind.label}_bms"

def entries (table : CodeTable) : ArrayKind → List String
  | .parity => table.rows.map DataSet.toDecimal
  | .data => table.columns.map fun c => Nat.repr c.bits.toNat

/-- The definition of one of the arrays, with the line end. -/
def arrayDefinition (d : Declaration) (table : CodeTable) (kind : ArrayKind) : String :=
  s!"{d.keyword} {table.arrayName kind}[] = {braced (table.entries kind)};\n"

end CodeTable

namespace CodeFamily

/-- The slot of the index for codes of the given size. -/
def indexSlot (f : CodeFamily) (kind : ArrayKind) (size : Nat) : String :=
  if size < f.firstSize then "0"
  else
    s!"g_{size}_{f.params.parities}_{f.params.hammingDistance}_hd_code_{kind.label}_bms"

/-- The slots of the index, for the sizes from 0 to the largest. -/
def indexSlots (f : CodeFamily) (kind : ArrayKind) : List String :=
  (List.range (f.lastSize + 1)).map (f.indexSlot kind)

/-- The definition of an index, with the line end. -/
def indexDefinition (f : CodeFamily) (kind : ArrayKind) : String :=
  s!"static unsigned int * hd{f.params.hammingDistance}_m{f.params.parities}_{kind.label}" ++
    s!"[{f.lastSize + 1}] = {braced (f.indexSlots kind)};\n"

end CodeFamily

end FlatXor
