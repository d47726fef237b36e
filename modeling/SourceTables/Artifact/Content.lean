import SourceTables.Artifact.Packed
import SourceTables.Batch
import SourceTables.Config
import SourceTables.Files.Basic
import SourceTables.Text.Utf8

/-!
# `SourceTables.Artifact.Content`: what artifacts hold

A columnar file holds a schema and batches of rows. There are two encodings. The paged one forgets how
rows fell into batches, and, since it stores columns, all rows of a table without columns; a structure
without members has no place in it. The streamed one keeps the batches. Each starts with a mark of its
own.
-/

set_option autoImplicit false

namespace SourceTables.Artifact

/-- A schema with batches of rows. -/
structure Content where
  schema : Schema
  batches : List (List Row)

/-! ### Packing -/

/-- A text as its characters. -/
def packText (s : String) : Packed := .group (s.toList.map fun c => .number c.toNat)

/-- A number. -/
def Packed.number? : Packed → Option Nat
  | .number n => some n
  | .group _ => none

/-- The items of a group. -/
def Packed.items? : Packed → Option (List Packed)
  | .group items => some items
  | .number _ => none

/-- The text of its characters. -/
def text? (p : Packed) : Option String := do
  return String.ofList ((← (← p.items?).mapM Packed.number?).map Char.ofNat)

/-- An integer as a sign and a size. -/
def packInteger : Int → List Packed
  | .ofNat n => [.number 0, .number n]
  | .negSucc n => [.number 1, .number n]

/-- The integer of a sign and a size. -/
def integer? : List Packed → Option Int
  | [.number 0, .number n] => some (.ofNat n)
  | [.number 1, .number n] => some (.negSucc n)
  | _ => none

/-- The scalar types, by number. -/
def scalarKinds : List Scalar :=
  [.boolean, .signed .w8, .signed .w16, .signed .w32, .signed .w64, .unsigned .w8, .unsigned .w16,
   .unsigned .w32, .unsigned .w64, .float32, .float64, .utf8, .date, .timestamp .second,
   .timestamp .millisecond, .timestamp .microsecond, .timestamp .nanosecond]

mutual

/-- A type, packed. -/
def packType : DataType → Packed
  | .null => .group []
  | .scalar kind => .group [.number 0, .number (scalarKinds.idxOf kind)]
  | .list item => .group [.number 1, packType item]
  | .struct fields => .group [.number 2, .group (packFields fields)]
termination_by structural t => t

/-- Fields, packed. -/
def packFields : List (Field DataType) → List Packed
  | [] => []
  | f :: rest => packField f :: packFields rest
termination_by structural fs => fs

/-- A field, packed. -/
def packField : Field DataType → Packed
  | ⟨name, type, nullable⟩ => .group [packText name, packType type, .number nullable.toNat]
termination_by structural f => f

end

mutual

/-- The type that was packed. -/
def type? : Packed → Option DataType
  | .number _ => none
  | .group items => typeOf? items
termination_by structural p => p

/-- The type of the items of its group. -/
def typeOf? : List Packed → Option DataType
  | [] => some .null
  | tag :: rest => match tag with
    | .number 0 => match rest with
      | [.number n] => scalarKinds[n]?.map .scalar
      | _ => none
    | .number 1 => (itemType? rest).map .list
    | .number 2 => (memberTypes? rest).map .struct
    | _ => none
termination_by structural ps => ps

/-- The type that stands alone. -/
def itemType? : List Packed → Option DataType
  | [] => none
  | p :: rest => if rest.isEmpty then type? p else none
termination_by structural ps => ps

/-- The fields that stand alone. -/
def memberTypes? : List Packed → Option (List (Field DataType))
  | [] => none
  | p :: rest => if rest.isEmpty then fieldsOf? p else none
termination_by structural ps => ps

/-- The fields of a group. -/
def fieldsOf? : Packed → Option (List (Field DataType))
  | .number _ => none
  | .group items => fields? items
termination_by structural p => p

/-- Fields that were packed. -/
def fields? : List Packed → Option (List (Field DataType))
  | [] => some []
  | p :: rest => do
    let f ← field? p
    return f :: (← fields? rest)
termination_by structural ps => ps

/-- The field that was packed. -/
def field? : Packed → Option (Field DataType)
  | .number _ => none
  | .group items => fieldParts? items
termination_by structural p => p

/-- The field of its parts. -/
def fieldParts? : List Packed → Option (Field DataType)
  | [] => none
  | name :: rest => do
    let name ← text? name
    let (type, nullable) ← typeAndFlag? rest
    return ⟨name, type, nullable⟩
termination_by structural ps => ps

/-- A type and a truth value. -/
def typeAndFlag? : List Packed → Option (DataType × Bool)
  | [] => none
  | p :: rest => do
    let type ← type? p
    match rest with
    | [.number n] => some (type, n = 1)
    | _ => none
termination_by structural ps => ps

end

mutual

/-- A cell, packed. -/
def packCell : Cell → Packed
  | .null => .group []
  | .bool b => .group [.number 0, .number b.toNat]
  | .int n => .group (.number 1 :: packInteger n)
  | .float x => .group [.number 2, .number x.toBits.toNat]
  | .text s => .group [.number 3, packText s]
  | .date n => .group (.number 4 :: packInteger n)
  | .instant n => .group (.number 5 :: packInteger n)
  | .list items => .group (.number 6 :: packCells items)
  | .struct members => .group (.number 7 :: packCells members)
termination_by structural c => c

/-- Cells, packed. -/
def packCells : List Cell → List Packed
  | [] => []
  | c :: rest => packCell c :: packCells rest
termination_by structural cs => cs

end

mutual

/-- The cell that was packed. -/
def cell? : Packed → Option Cell
  | .number _ => none
  | .group items => cellOf? items
termination_by structural p => p

/-- The cell of the items of its group. -/
def cellOf? : List Packed → Option Cell
  | [] => some .null
  | tag :: rest => match tag with
    | .number 0 => match rest with
      | [.number n] => some (.bool (n = 1))
      | _ => none
    | .number 1 => (integer? rest).map .int
    | .number 2 => match rest with
      | [.number n] => some (.float (Float.ofBits (UInt64.ofNat n)))
      | _ => none
    | .number 3 => match rest with
      | [p] => (text? p).map .text
      | _ => none
    | .number 4 => (integer? rest).map .date
    | .number 5 => (integer? rest).map .instant
    | .number 6 => (cells? rest).map .list
    | .number 7 => (cells? rest).map .struct
    | _ => none
termination_by structural ps => ps

/-- Cells that were packed. -/
def cells? : List Packed → Option (List Cell)
  | [] => some []
  | p :: rest => do
    let c ← cell? p
    return c :: (← cells? rest)
termination_by structural ps => ps

end

namespace Content

/-- All rows. -/
def rows (c : Content) : List Row := c.batches.flatten

/-- Contents, packed. -/
def pack (c : Content) : Packed :=
  .group [.group (packFields c.schema),
    .group (c.batches.map fun batch => .group (batch.map fun row => .group (packCells row)))]

/-- A row that was packed. -/
def row? (p : Packed) : Option Row := do cells? (← p.items?)

/-- A batch that was packed. -/
def batch? (p : Packed) : Option (List Row) := do (← p.items?).mapM row?

/-- The contents that were packed. -/
def ofPacked? : Packed → Option Content
  | .group [schema, batches] => do
    return ⟨← fields? (← schema.items?), ← (← batches.items?).mapM batch?⟩
  | _ => none

end Content

/-! ### Encodings -/

/-- What the bytes of an encoding start with. -/
def mark : Engine → Bytes
  | .parquet => Text.encodeUtf8 "rows in pages\n"
  | .arrow => Text.encodeUtf8 "rows in batches\n"

mutual

/-- Whether a type holds a structure without members. -/
def holdsEmptyStruct : DataType → Bool
  | .null => false
  | .scalar _ => false
  | .list item => holdsEmptyStruct item
  | .struct fields => fields.isEmpty || anyEmptyStruct fields
termination_by structural t => t

/-- Whether the type of a field holds a structure without members. -/
def anyEmptyStruct : List (Field DataType) → Bool
  | [] => false
  | f :: rest => fieldEmptyStruct f || anyEmptyStruct rest
termination_by structural fs => fs

/-- Whether the type of a field holds a structure without members. -/
def fieldEmptyStruct : Field DataType → Bool
  | ⟨_, type, _⟩ => holdsEmptyStruct type
termination_by structural f => f

end

namespace Content

/-- What an encoding keeps: pages are cut into batches of `batchSize` rows when they are read. -/
def kept (engine : Engine) (batchSize : Nat) (c : Content) : Content :=
  match engine with
  | .arrow => c
  | .parquet => { c with batches := if c.schema.isEmpty then [] else chunks batchSize c.rows }

/-- Whether an encoding has a place for contents. -/
def fits (engine : Engine) (c : Content) : Bool :=
  match engine with
  | .arrow => true
  | .parquet => !anyEmptyStruct c.schema

/-- The bytes of contents. -/
def encode (engine : Engine) (c : Content) : Bytes := mark engine ++ c.pack.bytes

/-- The contents of bytes. -/
def decode? (engine : Engine) (bytes : Bytes) : Option Content :=
  if (mark engine).isPrefixOf bytes then
    (Packed.ofBytes? (bytes.drop (mark engine).length)).bind ofPacked?
  else none

end Content

end SourceTables.Artifact
