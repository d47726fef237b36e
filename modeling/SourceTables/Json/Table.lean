import SourceTables.Batch
import SourceTables.Config
import SourceTables.Error
import SourceTables.Json.Parser
import SourceTables.Json.Shape
import SourceTables.Number.Decimal
import SourceTables.Text.Blank
import SourceTables.Text.Utf8

/-!
# `SourceTables.Json.Table`: tables from documents and records

Reading a value under a type is stricter than finding the type: only numbers are read from texts as
well. A missing member is null, and members that the type does not have are left out.

An array is a table with a row for each item, and an object is a table for each of its arrays that
are not empty, or else a table of one row. Items that are no objects are rows with the one column
`value`. A file of records is one table.
-/

set_option autoImplicit false

namespace SourceTables.Json

/-! ### Values as cells -/

/-- An integer: as it is written, or the integer part of a number in range. -/
def integerCell? (text : String) : Option Cell :=
  match Number.int64? text with
  | some n => some (.int n)
  | none => do
    let x ← Number.double? text
    if x.isNaN || x.isInf then none
    -- The fraction of a number is cut off.
    let n := Number.truncate x
    if Number.fitsInt64 n then some (.int n) else none

/-- A scalar that is not null. -/
def scalarCell? : DataType → Value → Option Cell
  | .int64, .number text => integerCell? text
  | .int64, .text s => (Number.int64? s).map .int
  | .float64, .number text => (Number.double? text).map .float
  | .float64, .text s => (Number.double? s).map .float
  | .boolean, .bool b => some (.bool b)
  | .utf8, .text s => some (.text s)
  | _, _ => none

/-- The last member of a key. -/
def member? (members : List (String × Value)) (key : String) : Option Value :=
  (members.reverse.find? (fun m => m.1 == key)).map Prod.snd

mutual

/-- A value read under a type. -/
def cell? : DataType → Value → Option Cell
  | .list item, v => match v with
    | .null => some .null
    | .array items => (items.mapM (cell? item)).map .list
    | _ => none
  | .struct fields, v => match v with
    | .null => some .null
    | .object members => (memberCells? fields members).map .struct
    | _ => none
  | .null, v => match v with
    | .null => some .null
    | _ => none
  | .scalar kind, v => match v with
    | .null => some .null
    | v => scalarCell? (.scalar kind) v
termination_by structural t => t

/-- The members of an object that fields name. -/
def memberCells? : List (Field DataType) → List (String × Value) → Option (List Cell)
  | [], _ => some []
  | f :: rest, members => do
    let c ← memberCell? f members
    return c :: (← memberCells? rest members)
termination_by structural fs => fs

/-- The member of an object that a field names. -/
def memberCell? : Field DataType → List (String × Value) → Option Cell
  | ⟨name, type, _⟩, members => cell? type ((member? members name).getD .null)
termination_by structural f => f

end

/-- A row: the members of an object that columns name. -/
def row? (schema : Schema) : Value → Option Row
  | .object members => memberCells? schema members
  | _ => none

/-! ### Tables -/

/-- The row that an item stands for. -/
def rowOf : Value → Value
  | .object members => .object members
  | v => .object [("value", v)]

/-- Values that fit no columns. -/
def misfit : Error := .column (.json "values that fit no columns")

/-- The table of rows, under columns that the first of them decide. -/
def tableOf (name : Option String) (schema : Schema) (batchSize : Nat) (rows : List Value) :
    Except Error Table :=
  match rows.mapM (row? schema) with
  | some cells => .ok ⟨name, schema, chunks batchSize cells⟩
  | none => .error misfit

/-- The table of items. -/
def itemsTable (name : Option String) (options : ConvertOptions) (items : List Value) :
    Except Error Table :=
  let rows := items.map rowOf
  match Shape.schema? (rows.take options.inferRecords) with
  | some schema => tableOf name schema options.batchSize rows
  | none => .error misfit

/-- The arrays among members that are not empty. -/
def arraysOf (members : List (String × Value)) : List (String × List Value) :=
  members.filterMap fun
    | (key, .array (v :: vs)) => some (key, v :: vs)
    | _ => none

/-- The tables of a document that stands at a path. -/
def documentTables (path : Path) (options : ConvertOptions) : Value → Except Error (List Table)
  | .array [] => .error (.conversion path "json" "empty JSON array")
  | .array items => do return [← itemsTable none options items]
  | .object members => match arraysOf members with
    | [] => do return [← itemsTable none options [.object members]]
    | arrays => arrays.mapM fun (key, items) => itemsTable (some key) options items
  | _ => .error (.conversion path "json" "expected a JSON array or object at top level")

/-- The first records of a file, one on each line that is not blank, as documents. -/
def firstRecords? (limit : Nat) (bytes : List UInt8) : Option (List Value) :=
  go limit (Text.split (· == 0x0A) bytes)
where
  /-- Reads records from lines until there are enough. -/
  go (limit : Nat) : List (List UInt8) → Option (List Value)
    | [] => some []
    | line :: rest =>
      -- Lines past the limit need not even be documents.
      if limit = 0 then some []
      else do
        let text ← (Text.decodeUtf8? line).toOption
        let record := Text.trim text
        if record.isEmpty then go limit rest
        else return (← document? record) :: (← go (limit - 1) rest)

/-- The table of a file of records. -/
def recordsTable (options : ConvertOptions) (bytes : List UInt8) : Except Error Table :=
  match (firstRecords? options.inferRecords bytes).bind Shape.schema? with
  | none => .error misfit
  | some schema => match (Text.decodeUtf8? bytes).toOption.bind records? with
    | none => .error misfit
    | some rows => tableOf none schema options.batchSize rows

/-- The tables of a document. -/
def tables (path : Path) (options : ConvertOptions) (bytes : List UInt8) : Except Error (List Table) :=
  match (Text.decodeUtf8? bytes).toOption.bind document? with
  | none => .error (.json "no document")
  | some v => documentTables path options v

end SourceTables.Json
