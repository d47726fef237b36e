import SourceTables.TextType
import SourceTables.Number.Text

/-!
# `SourceTables.Partition.Literal`: values of partition keys

The value of a key is read from a directory name under the type that all values of the key share. An
empty text and the default marker are null. Literals are compared within their kinds; integers and
decimals are compared as numbers; with a NaN, a null or across other kinds nothing can be said.
-/

set_option autoImplicit false

namespace SourceTables

/-- The value of a partition key. -/
inductive Literal where
  | integer (value : Int)
  | decimal (value : Float)
  | boolean (value : Bool)
  | text (value : String)
  | null
deriving DecidableEq

namespace Literal

instance : Inhabited Literal := ⟨.null⟩

/-- The text that stands for a null where an empty directory value would not do. -/
def defaultMarker : String := "__HIVE_DEFAULT_PARTITION__"

/-- Whether the text of a value stands for null. -/
def isNullText (raw : String) : Bool := raw.isEmpty || raw == defaultMarker

/-- Whether a literal is null. -/
def isNull : Literal → Bool
  | .null => true
  | _ => false

/-- The type of a key with these values: nulls do not count. -/
def inferType (raws : List String) : TextType :=
  TextType.infer (raws.filter (fun raw => !isNullText raw))

/-- A text that is not null, read under a type. -/
def read? (type : TextType) (raw : String) : Option Literal :=
  match type with
  | .integer => (Number.int64? raw).map .integer
  | .decimal => (Number.double? raw).map .decimal
  | .truth => (Number.truth? raw).map .boolean
  | .text => some (.text raw)

/-- The literal of a value; what does not read under the type is a text. -/
def parse (raw : String) (type : TextType) : Literal :=
  if isNullText raw then .null else (read? type raw).getD (.text raw)

/-- The text of a literal. -/
def display : Literal → String
  | .integer n => toString n
  | .decimal x => Number.Layout.plain.text x
  | .boolean b => toString b
  | .text s => s
  | .null => "NULL"

/-- The cell of a literal in a column of a type; null if it has no place there. -/
def cell (type : TextType) : Literal → Cell
  | .integer n => match type with
    | .integer => .int n
    | .decimal => .float (Number.ofInteger n)
    | .truth => .null
    | .text => .text (toString n)
  | .decimal x => match type with
    | .decimal => .float x
    | .text => .text (Number.Layout.plain.text x)
    | .integer | .truth => .null
  | .boolean b => match type with
    | .truth => .bool b
    | .text => .text (toString b)
    | .integer | .decimal => .null
  | .text s => match type with
    | .text => .text s
    | .integer | .decimal | .truth => .null
  | .null => .null

/-- The cells of a literal in a column of `count` rows. -/
def column (type : TextType) (count : Nat) (l : Literal) : List Cell :=
  List.replicate count (l.cell type)

/-- How two doubles compare; nothing compares with a NaN. -/
def compareDoubles (x y : Float) : Option Ordering :=
  -- Zero equals minus zero, whatever their signs.
  if x < y then some .lt else if y < x then some .gt else if x == y then some .eq else none

/-- How two literals compare, if they do. -/
def compare? : Literal → Literal → Option Ordering
  | .integer a, .integer b => some (compare a b)
  | .integer a, .decimal b => compareDoubles (Number.ofInteger a) b
  | .decimal a, .integer b => compareDoubles a (Number.ofInteger b)
  | .decimal a, .decimal b => compareDoubles a b
  | .boolean a, .boolean b => some (compare a b)
  | .text a, .text b => some (compare a b)
  | _, _ => none

/-- Whether two literals are of one kind and equal as values of it; a NaN equals nothing. -/
def same : Literal → Literal → Bool
  | .integer a, .integer b => a == b
  | .decimal a, .decimal b => a == b
  | .boolean a, .boolean b => a == b
  | .text a, .text b => a == b
  | .null, .null => true
  | _, _ => false

end Literal

end SourceTables
