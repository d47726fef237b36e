import SourceTables.Batch
import SourceTables.Config
import SourceTables.Delimited.Fault
import SourceTables.Delimited.Inference
import SourceTables.Delimited.Records
import SourceTables.Number.Decimal

/-!
# `SourceTables.Delimited.Decode`: tables from delimited text

The first record names the columns; a number of records after it decides on their types. Then all
records are read under these types, batch by batch: in each batch the counts of fields are checked
first, then that the fields are texts, and then the values, column by column.
-/

set_option autoImplicit false

namespace SourceTables.Delimited

/-! ### Names and types of columns -/

/-- The fields of a record as texts. -/
def Record.texts (r : Record) : Except Fault (List String) := go 0 r.fields
where
  /-- Reads the fields from number `n` on. -/
  go (n : Nat) : List Bytes → Except Fault (List String)
    | [] => .ok []
    | field :: rest => match Text.decodeUtf8? field with
      | .error place => .error (.notText n place r.line)
      | .ok text => (go (n + 1) rest).map (text :: ·)

/-- The fields of a record that has as many as the header. -/
def Record.textsOf (r : Record) (columns : Nat) : Except Fault (List String) :=
  if r.fields.length = columns then r.texts
  else .error (.unequal r.fields.length columns r.line)

/-- The types of so many columns of fields. -/
def columnTypes : Nat → List (List String) → List DataType
  | 0, _ => []
  | width + 1, rows => columnType (rows.filterMap List.head?) :: columnTypes width (rows.map List.tail)

/-- The columns of a file, from its first `limit` records after the header. -/
def inferSchema (limit : Nat) : List Record → Except Fault Schema
  | [] => .ok []
  | header :: rest => do
    let names ← header.texts
    let rows ← (rest.take limit).mapM (fun r => r.textsOf names.length)
    return names.zipWith (fun n type => ⟨n, type, true⟩) (columnTypes names.length rows)

/-! ### Values -/

/-- The value of a field. An empty field is null, and so is all of a column that holds only nulls. -/
def cell (type : DataType) (s : String) : Except FieldFault Cell :=
  let orFault (c : Option Cell) : Except FieldFault Cell := match c with
    | some c => .ok c
    | none => .error (.notOfType type)
  -- An empty field is null under every type, text included.
  if s.isEmpty then .ok .null
  else match type with
    | .int64 => orFault ((Number.int64? s).map .int)
    | .float64 => orFault ((Number.double? s).map .float)
    | .boolean => orFault ((Number.truth? s).map .bool)
    | .date => orFault ((Calendar.date? s).map fun d => .date d.toDays)
    | .timestamp unit => match Calendar.instant? s with
      | .error reason => .error (.notAnInstant reason)
      | .ok t => if Number.fitsInt64 (t.count unit) then .ok (.instant (t.count unit))
        else .error (.outOfRange t)
    | .utf8 => .ok (.text s)
    | _ => .ok .null

/-- A row of texts whose first fields have been read. -/
structure OpenRow where
  fields : List String
  unread : List String

/-- The values of one column. -/
def column (type : DataType) (number : Nat) : (row : Nat) → List OpenRow → Except Fault (List Cell)
  | _, [] => .ok []
  | row, r :: rest =>
    -- The counts were checked before, so there is a field.
    let s := r.unread.headD ""
    match cell type s with
    | .error cause => .error (.field cause s number row r.fields)
    | .ok c => (column type number (row + 1) rest).map (c :: ·)

/-- The rows of a batch whose first row has the number `row`, from column `number` on. -/
def typedRows (row : Nat) : (number : Nat) → List DataType → List OpenRow → Except Fault (List Row)
  | _, [], rows => .ok (rows.map fun _ => [])
  | number, type :: types, rows => do
    let cells ← column type number row rows
    let rest ← typedRows row (number + 1) types (rows.map fun r => { r with unread := r.unread.tail })
    return cells.zipWith List.cons rest

/-- Checks that all records of a batch have as many fields as there are columns. A batch has space
for the fields of `space` records; the empty field at the end of a record that is cut off takes
none. -/
def checkCounts (columns : Nat) : (record space : Nat) → List Record → Except Fault Unit
  | _, _, [] => .ok ()
  | record, space, r :: rest =>
    let found := r.fields.length
    -- The space shrinks record by record, so a long record is reported differently near the end of
    -- a batch.
    if found = columns then checkCounts columns (record + 1) (space - 1) rest
    else if space * columns + (if r.cutOff then 1 else 0) < found then .error (.tooManyFields record columns (space * columns))
    else .error (.fieldCount record columns found)

/-- The fields of a record as texts. -/
def rowTexts (record : Nat) : (field : Nat) → List Bytes → Except Fault (List String)
  | _, [] => .ok []
  | field, bytes :: rest => match Text.decodeUtf8? bytes with
    | .error _ => .error (.invalidBytes record field)
    | .ok text => (rowTexts record (field + 1) rest).map (text :: ·)

/-- The fields of the records of a batch as texts. -/
def batchTexts : (record : Nat) → List Record → Except Fault (List (List String))
  | _, [] => .ok []
  | record, r :: rest => do
    let texts ← rowTexts record 1 r.fields
    return texts :: (← batchTexts (record + 1) rest)

/-- The rows of a batch whose first row has the number `row`; the header is a record, too. -/
def decodeBatch (types : List DataType) (batchSize row : Nat) (records : List Record) :
    Except Fault (List Row) := do
  checkCounts types.length (row + 1) batchSize records
  let texts ← batchTexts (row + 1) records
  typedRows row 0 types (texts.map fun fields => ⟨fields, fields⟩)

/-- The rows of batches, one after another. -/
def decodeBatches (types : List DataType) (batchSize : Nat) :
    (row : Nat) → List (List Record) → Except Fault (List (List Row))
  | _, [] => .ok []
  | row, records :: rest => do
    let rows ← decodeBatch types batchSize row records
    return rows :: (← decodeBatches types batchSize (row + records.length) rest)

/-- The table of a file. Bytes without a record are refused. -/
def table (delimiter : UInt8) (options : ConvertOptions) (bytes : Bytes) : Except Fault Table := do
  let all := records delimiter bytes
  let schema ← inferSchema options.inferRecords all
  -- Line breaks alone are no header.
  if all.isEmpty && !(dropByteOrderMark bytes).isEmpty then throw (.tooManyFields 1 0 0)
  let batches ← decodeBatches (schema.map Field.type) options.batchSize 1
    (chunks options.batchSize all.tail)
  return ⟨none, schema, batches⟩

end SourceTables.Delimited
