import FlatXor.Declarations
import FlatXor.Sink
import FlatXor.TableRecord

/-!
# The text of a family

The tables of a family are written in ascending size, either as C declarations or
as one JSON object for each line. What concerns the whole family comes last. A
table is not computed before its turn, so a sink that fills up ends the work.
-/
namespace FlatXor

inductive OutputFormat where
  | c
  | json
  deriving Repr, DecidableEq

/-- What is written for a family. Declaration and index concern the C format only. -/
structure OutputSettings where
  format : OutputFormat
  declaration : Declaration
  /-- Are the index arrays wanted? -/
  index : Bool
  deriving Repr, DecidableEq

namespace OutputSettings

def default : OutputSettings := ⟨.c, .plain, false⟩

/-- The output for one table. -/
def tablePieces (o : OutputSettings) (table : CodeTable) : List Piece :=
  match o.format with
  | .c => [.plain (table.arrayDefinition o.declaration .parity),
      .plain (table.arrayDefinition o.declaration .data)]
  | .json => [.object (TableRecord.ofTable table).render, .plain "\n"]

/-- The output after the last table. -/
def finalPieces (o : OutputSettings) (f : CodeFamily) : List Piece :=
  match o.format, o.index with
  | .c, true => [.plain (f.indexDefinition .parity), .plain (f.indexDefinition .data)]
  | _, _ => []

end OutputSettings

namespace CodeFamily

/-- The whole output for the family. -/
def pieces (f : CodeFamily) (o : OutputSettings) : List Piece :=
  f.tables.flatMap o.tablePieces ++ o.finalPieces f

def render (f : CodeFamily) (o : OutputSettings) : String :=
  String.join ((f.pieces o).map Piece.text)

/-- As JSON each table is an object and a line end. -/
theorem pieces_of_json {f : CodeFamily} {o : OutputSettings} (h : o.format = .json) :
    f.pieces o =
      f.tables.flatMap fun table => [.object (TableRecord.ofTable table).render, .plain "\n"] := by
  have htable : o.tablePieces =
      fun table => [.object (TableRecord.ofTable table).render, .plain "\n"] := by
    funext table
    simp [OutputSettings.tablePieces, h]
  simp [pieces, htable, OutputSettings.finalPieces, h]

/-- In C each table is two definitions, and the indexes follow the last one. -/
theorem pieces_of_c {f : CodeFamily} {o : OutputSettings} (h : o.format = .c) :
    f.pieces o =
      (f.tables.flatMap fun table => [.plain (table.arrayDefinition o.declaration .parity),
        .plain (table.arrayDefinition o.declaration .data)]) ++
      if o.index then [.plain (f.indexDefinition .parity), .plain (f.indexDefinition .data)]
      else [] := by
  have htable : o.tablePieces =
      fun table => [.plain (table.arrayDefinition o.declaration .parity),
        .plain (table.arrayDefinition o.declaration .data)] := by
    funext table
    simp [OutputSettings.tablePieces, h]
  rw [pieces, htable, OutputSettings.finalPieces, h]
  cases o.index <;> rfl

/-- Writes the output to a sink, table by table. -/
def write (f : CodeFamily) (o : OutputSettings) (s : Sink) : Except WriteError Unit × Sink :=
  Sink.proceed (Sink.writeEach (fun size => o.tablePieces (f.tableAt size)) f.sizes s)
    (Sink.writeAll (o.finalPieces f))

/-- Writing table by table is writing all the pieces. -/
theorem write_eq_writeAll (f : CodeFamily) (o : OutputSettings) (s : Sink) :
    f.write o s = Sink.writeAll (f.pieces o) s := by
  rw [write, Sink.writeEach_eq_writeAll, pieces, Sink.writeAll_append, tables, List.flatMap_map]

end CodeFamily

end FlatXor
