import SourceTables.Artifact.Content
import SourceTables.Cast
import SourceTables.Snapshot

/-!
# `SourceTables.Align`: rows of artifacts as rows of a table

Each column of a table is filled from an artifact in one of three ways: from the first of the
artifact's columns with its name, put under the table's type; with nulls, when the artifact has no
such column; or, for a partition key, with the partition's value. Which way is decided once for an
artifact. A projection then picks columns by their positions.

Main statement: `length_align` (aligning keeps the number of rows).
-/

set_option autoImplicit false

namespace SourceTables

/-- Where the cells of a table's column come from. -/
inductive ColumnSource where
  /-- A column of the artifact, put under the table's type. -/
  | stored (position : Nat) (convert : Cell → Cell)
  /-- The same cell in every row. -/
  | constant (cell : Cell)

/-- The cell of a column, given a row of the artifact. -/
def ColumnSource.cell (row : Row) : ColumnSource → Cell
  | .stored position convert => convert (row[position]?.getD .null)
  | .constant cell => cell

namespace Snapshot

/-- The source of a column that is read from artifacts. -/
def dataSource (stored : Schema) (f : Field DataType) : Except ColumnError ColumnSource :=
  match stored.findIdx? (fun g => g.name == f.name) with
  | none => .ok (.constant .null)
  | some position => match stored[position]? with
    | none => .ok (.constant .null)
    | some g => (castColumn g.type f.type).map (.stored position)

/-- The source of a key's column. -/
def keySource (p : Partition) (key : PartitionKey) : ColumnSource :=
  .constant (((p.value? key.name).getD .null).cell key.type)

/-- The sources of all columns of a table, for an artifact of a partition. -/
def columnSources (s : Snapshot) (p : Partition) (stored : Schema) :
    Except ColumnError (List ColumnSource) := do
  let data ← s.dataSchema.mapM (dataSource stored)
  return data ++ s.keys.map (keySource p)

/-- Rows of a table from rows of an artifact. -/
def align (sources : List ColumnSource) (rows : List Row) : List Row :=
  rows.map fun row => sources.map (ColumnSource.cell row)

/-- Aligning keeps the number of rows. -/
@[simp] theorem length_align (sources : List ColumnSource) (rows : List Row) :
    (align sources rows).length = rows.length := by
  simp [align]

end Snapshot

/-- The columns at some positions. -/
def Schema.project (s : Schema) (positions : List Nat) : Except ColumnError Schema :=
  positions.mapM fun i => match s[i]? with
    | some f => .ok f
    | none => .error (.schema ("project index " ++ toString i ++ " out of bounds, max field "
        ++ toString s.length))

/-- The cells at some positions. -/
def Row.project (positions : List Nat) (r : Row) : Row :=
  positions.map fun i => r[i]?.getD .null

namespace Batch

/-- The columns of a batch at some positions, or all of them. -/
def project (b : Batch) : Option (List Nat) → Except ColumnError Batch
  | none => .ok b
  | some positions => (b.schema.project positions).map fun schema =>
    ⟨schema, b.rows.map (Row.project positions)⟩

/-- The first rows of a batch. -/
def take (b : Batch) (count : Nat) : Batch := { b with rows := b.rows.take count }

end Batch

/-- A batch of a table from a batch of an artifact. -/
def Snapshot.batch (s : Snapshot) (p : Partition) (stored : Batch) : Except ColumnError Batch :=
  (s.columnSources p stored.schema).map fun sources => ⟨s.schema, Snapshot.align sources stored.rows⟩

end SourceTables
