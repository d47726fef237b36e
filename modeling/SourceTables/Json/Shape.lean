import SourceTables.Json.Basic
import SourceTables.Schema

/-!
# `SourceTables.Json.Shape`: the types of columns of values

What some values have in common: nothing yet, scalars of some kinds, arrays of one shape, or objects
whose members have shapes. A scalar among arrays counts as an array of one item; an object goes with
objects only. The items of an array are as its first item is.
-/

set_option autoImplicit false

namespace SourceTables.Json

/-- The kinds of scalars. -/
inductive Kind where
  | truth
  | integer
  | decimal
  | text
deriving DecidableEq

/-- What some values have in common. -/
inductive Shape where
  | any
  | scalar (kinds : List Kind)
  | array (item : Shape)
  | object (members : List (String × Shape))

instance : Inhabited Shape := ⟨.any⟩

namespace Shape

/-- The kind of a number: only integers of 64 bits are integers. -/
def numberKind (text : String) : Kind :=
  match integerText? text with
  | some n => if Number.fitsInt64 n then .integer else .decimal
  | none => .decimal

/-- Kinds with more kinds. -/
def union (kinds more : List Kind) : List Kind :=
  more.foldl (fun all k => if all.contains k then all else all ++ [k]) kinds

/-- A shape that has seen scalars, too. -/
def withKinds? (kinds : List Kind) : Shape → Option Shape
  | .any => some (.scalar kinds)
  | .scalar old => some (.scalar (union old kinds))
  | .array item => (withKinds? kinds item).map .array
  | .object _ => none

/-- Members of which one is changed, or comes last if there was none. -/
def updateMember? (key : String) (change : Shape → Option Shape) :
    List (String × Shape) → Option (List (String × Shape))
  | [] => (change .any).map fun s => [(key, s)]
  | m :: rest =>
    if m.1 = key then (change m.2).map fun s => (key, s) :: rest
    else (updateMember? key change rest).map (m :: ·)

mutual

/-- The shape of values that have one of two shapes. -/
def merge? (a : Shape) : Shape → Option Shape
  | .any => some a
  | .scalar kinds => withKinds? kinds a
  | .array item => match a with
    | .any => some (.array item)
    | .array old => (merge? old item).map .array
    -- A scalar before an array counts as an array of one item.
    | .scalar kinds => (withKinds? kinds item).map .array
    | .object _ => none
  | .object members => match a with
    | .any => some (.object members)
    | .object old => (mergeMembers? old members).map .object
    | .scalar _ | .array _ => none
termination_by structural b => b

/-- Merges members one by one. -/
def mergeMembers? (old : List (String × Shape)) : List (String × Shape) → Option (List (String × Shape))
  | [] => some old
  | m :: rest => (mergeMember? old m).bind fun members => mergeMembers? members rest
termination_by structural ms => ms

/-- Merges one member. -/
def mergeMember? (old : List (String × Shape)) : String × Shape → Option (List (String × Shape))
  | (key, shape) => updateMember? key (fun s => merge? s shape) old
termination_by structural m => m

end

mutual

/-- The shape of a member that had a shape and has another value now. -/
def joinValue? (old : Shape) : Value → Option Shape
  | .null => some old
  | .bool _ => withKinds? [.truth] old
  | .number text => withKinds? [numberKind text] old
  | .text _ => withKinds? [.text] old
  | .array items => (itemShape? items).bind fun item => match old with
    | .any => some (.array item)
    | .array s => (merge? s item).map .array
    | .scalar kinds => (merge? (.scalar kinds) item).map .array
    | .object _ => none
  | .object members => match old with
    | .any => (joinMembers? [] members).map .object
    | .object fields => (joinMembers? fields members).map .object
    | .scalar _ | .array _ => none
termination_by structural v => v

/-- The shapes of members after those of one more object. -/
def joinMembers? (fields : List (String × Shape)) :
    List (String × Value) → Option (List (String × Shape))
  | [] => some fields
  | m :: rest => (joinMember? fields m).bind fun fields => joinMembers? fields rest
termination_by structural ms => ms

/-- The shapes of members after one more. -/
def joinMember? (fields : List (String × Shape)) : String × Value → Option (List (String × Shape))
  | (key, v) => updateMember? key (fun old => joinValue? old v) fields
termination_by structural m => m

/-- The shape of the items of an array, as its first item is. -/
def itemShape? : List Value → Option Shape
  | [] => some .any
  | first :: rest => match first with
    | .array items => (itemShape? items).bind fun item => arrayShape? item rest
    | .object members => (joinMembers? [] members).bind fun fields => objectShape? fields rest
    | .null => scalarShape? [] rest
    | .bool _ => scalarShape? [.truth] rest
    | .number text => scalarShape? [numberKind text] rest
    | .text _ => scalarShape? [.text] rest
termination_by structural vs => vs

/-- The shape of items that are all arrays. -/
def arrayShape? (item : Shape) : List Value → Option Shape
  | [] => some (.array item)
  | v :: rest => match v with
    | .array items => (itemShape? items).bind fun more =>
      (merge? item more).bind fun item => arrayShape? item rest
    | _ => none
termination_by structural vs => vs

/-- The shape of items that are all objects. -/
def objectShape? (fields : List (String × Shape)) : List Value → Option Shape
  | [] => some (.object fields)
  | v :: rest => match v with
    | .object members => (joinMembers? fields members).bind fun fields => objectShape? fields rest
    | _ => none
termination_by structural vs => vs

/-- The shape of items that are all scalars. -/
def scalarShape? (kinds : List Kind) : List Value → Option Shape
  | [] => some (.scalar kinds)
  | v :: rest => match v with
    | .null => scalarShape? kinds rest
    | .bool _ => scalarShape? (union kinds [.truth]) rest
    | .number text => scalarShape? (union kinds [numberKind text]) rest
    | .text _ => scalarShape? (union kinds [.text]) rest
    | .array _ | .object _ => none
termination_by structural vs => vs

end

/-- The type of one kind. -/
def kindType : Kind → DataType
  | .truth => .boolean
  | .integer => .int64
  | .decimal => .float64
  | .text => .utf8

/-- The type of scalars of some kinds: integers and decimals are doubles, any other mix is text, and so
are the items of arrays that hold nulls only. -/
def kindsType : List Kind → DataType
  | [] => .utf8
  | k :: rest =>
    rest.foldl (fun type k =>
      let next := kindType k
      -- Kinds come in the order in which they were seen; text never gives way again.
      if type = next then type
      else if type = .int64 && next = .float64 || type = .float64 && next = .int64 then .float64
      else .utf8) (kindType k)

mutual

/-- The type of values of a shape. -/
def dataType : Shape → DataType
  | .any => .null
  | .scalar kinds => kindsType kinds
  | .array item => .list item.dataType
  | .object members => .struct (fieldTypes members)
termination_by structural s => s

/-- The fields of members; all are nullable. -/
def fieldTypes : List (String × Shape) → List (Field DataType)
  | [] => []
  | m :: rest => fieldType m :: fieldTypes rest
termination_by structural ms => ms

/-- The field of a member. -/
def fieldType : String × Shape → Field DataType
  | (name, s) => ⟨name, s.dataType, true⟩
termination_by structural m => m

end

/-- The columns of rows, which have to be objects. -/
def schema? (rows : List Value) : Option Schema :=
  (objectShape? [] rows).map fun
    | .object members => fieldTypes members
    | .any | .scalar _ | .array _ => []

end Shape

end SourceTables.Json
