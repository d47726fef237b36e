/-!
# `SourceTables.Schema`: column types and schemas

A column holds nothing but nulls, scalars of one kind, lists, or structures with named members. A
schema is the list of a table's columns in order; columns are matched by name.
-/

set_option autoImplicit false

namespace SourceTables

/-- The unit of a point in time. -/
inductive TimeUnit where
  | second
  | millisecond
  | microsecond
  | nanosecond
deriving DecidableEq

/-- The size of an integer. -/
inductive Width where
  | w8
  | w16
  | w32
  | w64
deriving DecidableEq

/-- The types of single values. -/
inductive Scalar where
  | boolean
  | signed (width : Width)
  | unsigned (width : Width)
  | float32
  | float64
  | utf8
  | date
  | timestamp (unit : TimeUnit)
deriving DecidableEq

/-- A named member: of a table, its columns; of a structure, its parts. -/
structure Field (τ : Type) where
  name : String
  type : τ
  nullable : Bool
deriving DecidableEq, Inhabited

/-- The type of a column. -/
inductive DataType where
  | null
  | scalar (kind : Scalar)
  | list (item : DataType)
  | struct (fields : List (Field DataType))

/-- The columns of a table, in order. -/
abbrev Schema := List (Field DataType)

namespace DataType

instance : Inhabited DataType := ⟨.null⟩

/-- Signed integers of 64 bits. -/
@[match_pattern] abbrev int64 : DataType := .scalar (.signed .w64)

/-- Floating point numbers of double precision. -/
@[match_pattern] abbrev float64 : DataType := .scalar .float64

/-- Truth values. -/
@[match_pattern] abbrev boolean : DataType := .scalar .boolean

/-- Texts. -/
@[match_pattern] abbrev utf8 : DataType := .scalar .utf8

/-- Days. -/
@[match_pattern] abbrev date : DataType := .scalar .date

/-- Points in time. -/
@[match_pattern] abbrev timestamp (unit : TimeUnit) : DataType := .scalar (.timestamp unit)

mutual

/-- Types are compared by structure. -/
def decEq : (a b : DataType) → Decidable (a = b)
  | .null, .null => .isTrue rfl
  | .scalar s, .scalar t =>
    if h : s = t then .isTrue (by rw [h]) else .isFalse (fun e => h (by cases e; rfl))
  | .list a, .list b => match decEq a b with
    | .isTrue h => .isTrue (by rw [h])
    | .isFalse h => .isFalse (fun e => h (by cases e; rfl))
  | .struct a, .struct b => match decEqFields a b with
    | .isTrue h => .isTrue (by rw [h])
    | .isFalse h => .isFalse (fun e => h (by cases e; rfl))
  | .null, .scalar _ | .null, .list _ | .null, .struct _ => .isFalse nofun
  | .scalar _, .null | .scalar _, .list _ | .scalar _, .struct _ => .isFalse nofun
  | .list _, .null | .list _, .scalar _ | .list _, .struct _ => .isFalse nofun
  | .struct _, .null | .struct _, .scalar _ | .struct _, .list _ => .isFalse nofun
termination_by structural a => a

/-- Lists of members are compared in order. -/
def decEqFields : (a b : List (Field DataType)) → Decidable (a = b)
  | [], [] => .isTrue rfl
  | f :: fs, g :: gs => match decEqField f g, decEqFields fs gs with
    | .isTrue h, .isTrue h' => .isTrue (by rw [h, h'])
    | .isFalse h, _ => .isFalse (fun e => h (by cases e; rfl))
    | _, .isFalse h => .isFalse (fun e => h (by cases e; rfl))
  | [], _ :: _ => .isFalse nofun
  | _ :: _, [] => .isFalse nofun
termination_by structural a => a

/-- Members are compared by name, type and nullability. -/
def decEqField : (a b : Field DataType) → Decidable (a = b)
  | ⟨n, s, u⟩, ⟨m, t, v⟩ => match decEq s t with
    | .isTrue h =>
      if hn : n = m ∧ u = v then .isTrue (by rw [h, hn.1, hn.2])
      else .isFalse (fun e => hn (by cases e; exact ⟨rfl, rfl⟩))
    | .isFalse h => .isFalse (fun e => h (by cases e; rfl))
termination_by structural a => a

end

instance : DecidableEq DataType := decEq

end DataType

/-- The bits of an integer. -/
def Width.bits : Width → Nat
  | .w8 => 8
  | .w16 => 16
  | .w32 => 32
  | .w64 => 64

/-- Whether values of a type are numbers. -/
def Scalar.isNumeric : Scalar → Bool
  | .signed _ | .unsigned _ | .float32 | .float64 => true
  | .boolean | .utf8 | .date | .timestamp _ => false

/-- The word for a unit. -/
def TimeUnit.name : TimeUnit → String
  | .second => "Second"
  | .millisecond => "Millisecond"
  | .microsecond => "Microsecond"
  | .nanosecond => "Nanosecond"

/-- How many units make up a second. -/
def TimeUnit.perSecond : TimeUnit → Nat
  | .second => 1
  | .millisecond => 1000
  | .microsecond => 1000000
  | .nanosecond => 1000000000

/-- The name of a scalar type. -/
def Scalar.name : Scalar → String
  | .boolean => "Boolean"
  | .signed w => "Int" ++ toString w.bits
  | .unsigned w => "UInt" ++ toString w.bits
  | .float32 => "Float32"
  | .float64 => "Float64"
  | .utf8 => "Utf8"
  | .date => "Date32"
  | .timestamp unit => "Timestamp(" ++ unit.name ++ ", None)"

/-- A text in double quotes, with escapes where it needs them. -/
def quoted (s : String) : String :=
  let escape : Char → List Char := fun c =>
    if c = '"' then ['\\', '"']
    else if c = '\\' then ['\\', '\\']
    else if c = '\n' then ['\\', 'n']
    else if c = '\r' then ['\\', 'r']
    else if c = '\t' then ['\\', 't']
    else if c = '\x00' then ['\\', '0']
    else [c]
  "\"" ++ String.ofList (s.toList.flatMap escape) ++ "\""

/-- The full description of a member, from its name, the name of its type and its nullability. -/
def describeMember (name type : String) (nullable : Bool) : String :=
  "Field \x7b name: " ++ quoted name ++ ", data_type: " ++ type ++ ", nullable: " ++ toString nullable
    ++ ", dict_id: 0, dict_is_ordered: false, metadata: \x7b\x7d \x7d"

mutual

/-- The name of a type, with the members of nested types. -/
def DataType.name : DataType → String
  | .null => "Null"
  | .scalar kind => kind.name
  | .list item => "List(" ++ describeMember "item" item.name true ++ ")"
  | .struct fields => "Struct([" ++ ", ".intercalate (DataType.describeFields fields) ++ "])"
termination_by structural t => t

/-- The members of a structure, described. -/
def DataType.describeFields : List (Field DataType) → List String
  | [] => []
  | f :: rest => DataType.describeField f :: DataType.describeFields rest
termination_by structural fs => fs

/-- A member of a structure, described. -/
def DataType.describeField : Field DataType → String
  | ⟨name, type, nullable⟩ => describeMember name type.name nullable
termination_by structural f => f

end

end SourceTables
