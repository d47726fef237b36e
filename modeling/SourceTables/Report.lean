import SourceTables.Cast
import SourceTables.Text.Character
import SourceTables.Text.Split

/-!
# `SourceTables.Report`: rows as an aligned table and as delimited text

In an aligned table each column is as wide as its widest line. Cells stand at the left of their columns,
and a cell with several lines takes as many lines of the table. Lines of dashes stand above the headings,
below them and at the end.

In delimited text fields stand between commas, one record a line, the headings first. A field that holds a
comma, a quote or a line break is put in quotes, and a quote in it is written twice. A record that would be
empty is written as a pair of quotes. Lists and structures have no place in a field.
-/

set_option autoImplicit false

namespace SourceTables.Report

/-! ### Aligned tables -/

/-- The lines of a cell. -/
abbrev CellLines := List (List Char)

/-- The lines of a text. -/
def cellLines (s : String) : CellLines := Text.split (· == '\n') s.toList

/-- The widest line of a cell. -/
def cellWidth (c : CellLines) : Nat := (c.map Text.width).foldr max 0

/-- The widths of columns, given all rows. -/
def columnWidths (columns : Nat) (rows : List (List CellLines)) : List Nat :=
  (List.range columns).map fun i =>
    (rows.map fun row => (row[i]?.map cellWidth).getD 0).foldr max 0

/-- A line of dashes. -/
def ruler (widths : List Nat) : String :=
  "+" ++ String.join (widths.map fun w => String.ofList (List.replicate (w + 2) '-') ++ "+")

/-- The line of a row at some height. -/
def rowLine (widths : List Nat) (row : List CellLines) (height : Nat) : String :=
  "|" ++ String.join (widths.zipWith
    (fun w (lines : CellLines) =>
      " " ++ String.ofList (Text.fill w (lines[height]?.getD [])) ++ " |") row)

/-- The lines of a row. -/
def rowLines (widths : List Nat) (row : List CellLines) : List String :=
  (List.range ((row.map List.length).foldr max 0)).map (rowLine widths row)

/-- The lines of a table. -/
def aligned (headings : List String) (rows : List (List String)) : List String :=
  let headings := headings.map cellLines
  let rows := rows.map fun row => row.map cellLines
  let widths := columnWidths headings.length (headings :: rows)
  [ruler widths] ++ rowLines widths headings ++ [ruler widths]
    ++ rows.flatMap (rowLines widths) ++ [ruler widths]

/-- The texts of a row's cells. -/
def cellTexts (s : Schema) (r : Row) : List String := s.zipWith (fun f c => c.display f.type) r

/-- The lines of a table of batches. -/
def alignedBatches (batches : List Batch) : List String :=
  let schema := (batches.head?.map Batch.schema).getD []
  aligned (schema.map Field.name) (batches.flatMap fun b => b.rows.map (cellTexts b.schema))

/-! ### Delimited text -/

/-- Whether a character cannot stand in a bare field. -/
def needsQuotes (c : Char) : Bool := c == ',' || c == '"' || c == '\n' || c == '\r'

/-- A text with each quote written twice. -/
def doubleQuotes (cs : List Char) : List Char := cs.flatMap fun c => if c = '"' then ['"', '"'] else [c]

/-- A field as it is written. -/
def field (s : String) : String :=
  if s.toList.any needsQuotes then "\"" ++ String.ofList (doubleQuotes s.toList) ++ "\"" else s

/-- A record as it is written, with its line end. -/
def record (fields : List String) : String :=
  let line := ",".intercalate (fields.map field)
  (if line.isEmpty then "\"\"" else line) ++ "\n"

/-- Whether the values of a type are made of parts. -/
def isNested : DataType → Bool
  | .list _ | .struct _ => true
  | .null | .scalar _ => false

/-- The records of a batch, or the reason why it has none. -/
def batchRecords (b : Batch) : Except ColumnError String :=
  match b.schema.find? (fun f => isNested f.type) with
  | some f => .error (.records ("Nested type " ++ f.type.name ++ " is not supported in CSV"))
  | none => .ok (String.join (b.rows.map fun r => record (cellTexts b.schema r)))

/-- The records of batches up to the first that has none, and the reason for that. -/
def allRecords : List Batch → String × Option ColumnError
  | [] => ("", none)
  | b :: rest => match batchRecords b with
    | .error e => ("", some e)
    | .ok text =>
      let (more, failure) := allRecords rest
      (text ++ more, failure)

/-- The text of batches, and the reason for which it ends early. -/
def delimitedBatches : List Batch → String × Option ColumnError
  | [] => ("", none)
  | b :: rest =>
    let (text, failure) := allRecords (b :: rest)
    (record (b.schema.map Field.name) ++ text, failure)

end SourceTables.Report
