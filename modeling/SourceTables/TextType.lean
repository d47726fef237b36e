import SourceTables.Batch
import SourceTables.Number.Decimal

/-!
# `SourceTables.TextType`: types that texts are read under

Texts without a declared type, the cells of grids and the values of partition keys, have the first
of `Int64`, `Float64`, `Boolean` and `Utf8` under which all of them read.
-/

set_option autoImplicit false

namespace SourceTables

/-- The types that a column of texts can have, in the order in which they are tried. -/
inductive TextType where
  | integer
  | decimal
  | truth
  | text
deriving DecidableEq

namespace TextType

/-- The column type. -/
def dataType : TextType → DataType
  | .integer => .int64
  | .decimal => .float64
  | .truth => .boolean
  | .text => .utf8

/-- A text read under a type. -/
def read? (type : TextType) (s : String) : Option Cell :=
  match type with
  | .integer => (Number.int64? s).map .int
  | .decimal => (Number.double? s).map .float
  | .truth => (Number.truth? s).map .bool
  | .text => some (.text s)

/-- The first type under which all texts read; `text` if there are none. -/
def infer (texts : List String) : TextType :=
  if texts.isEmpty then .text
  else if texts.all (fun s => (read? .integer s).isSome) then .integer
  else if texts.all (fun s => (read? .decimal s).isSome) then .decimal
  else if texts.all (fun s => (read? .truth s).isSome) then .truth
  else .text

/-- The cell that a trimmed text stands for: null if it is empty. -/
def cell (type : TextType) (s : String) : Cell :=
  if s.isEmpty then .null else (type.read? s).getD .null

end TextType

end SourceTables
