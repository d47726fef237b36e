import SourceTables.Files.Basic

/-!
# `SourceTables.Delimited.Records`: bytes as records of fields

A record is a line of fields with delimiters between them. A field that starts with a double quote
runs to the next quote that is not doubled, over delimiters and line breaks; what follows the closing
quote belongs to the field as it is. Empty lines are no records, and a mark of the byte order at the
start does not count.
-/

set_option autoImplicit false

namespace SourceTables.Delimited

/-- The fields of a line, and the number of line feeds before it plus one. Blank lines right before
it count to the line, and so does the second half of a line break of two bytes. A record is cut off
if the bytes end right after one of its delimiters. -/
structure Record where
  fields : List Bytes
  line : Nat
  cutOff : Bool

/-- Where a scanner stands. -/
inductive Position where
  /-- Before the first byte of a record. -/
  | record
  /-- Before the first byte of a field. -/
  | field
  /-- In a field without quotes, or after the closing one. -/
  | inside
  /-- Between quotes. -/
  | quoted
  /-- After a quote that may close the field. -/
  | maybeClosed
deriving DecidableEq

/-- What a scanner has read of a record: the current field and the ones before it, both in
reverse. -/
structure Partial where
  field : Bytes
  fields : List Bytes

/-- Nothing read of a record. -/
def Partial.empty : Partial := ⟨[], []⟩

/-- One more byte of the current field. -/
def Partial.push (r : Partial) (b : UInt8) : Partial := { r with field := b :: r.field }

/-- The current field is complete. -/
def Partial.endField (r : Partial) : Partial := ⟨[], r.field.reverse :: r.fields⟩

/-- The fields once the last one is complete. -/
def Partial.finish (r : Partial) : List Bytes := r.endField.fields.reverse

/-- The byte of a double quote. -/
def quote : UInt8 := 0x22

/-- Whether a byte ends a line. -/
def isLineEnd (b : UInt8) : Bool := b = 0x0A || b = 0x0D

/-- What a byte does. -/
inductive Step where
  /-- It is read over. -/
  | pass (next : Position)
  /-- It belongs to the current field. -/
  | take (next : Position)
  | endField
  | endRecord

/-- What a byte does outside quotes. -/
def unquoted (delimiter b : UInt8) : Step :=
  if b = delimiter then .endField
  else if isLineEnd b then .endRecord
  else .take .inside

/-- What a byte does. -/
def step (delimiter : UInt8) (position : Position) (b : UInt8) : Step :=
  match position with
  | .record =>
    if isLineEnd b then .pass .record
    else if b = quote then .pass .quoted
    else unquoted delimiter b
  | .field => if b = quote then .pass .quoted else unquoted delimiter b
  | .inside => unquoted delimiter b
  | .quoted => if b = quote then .pass .maybeClosed else .take .quoted
  | .maybeClosed => if b = quote then .take .quoted else unquoted delimiter b

/-- The records of bytes. `started` is the line of the current record, `line` the line that has been
reached. -/
def scan (delimiter : UInt8) (position : Position) (r : Partial) (started line : Nat) :
    Bytes → List Record
  | [] => if position = .record then [] else [⟨r.finish, started, position = .field⟩]
  | b :: rest =>
    -- Only line feeds are counted, also those between quotes.
    let line := if b = 0x0A then line + 1 else line
    match step delimiter position b with
    | .pass next => scan delimiter next r started line rest
    | .take next => scan delimiter next (r.push b) started line rest
    | .endField => scan delimiter .field r.endField started line rest
    -- The second half of a line break of two bytes is read over as an empty line.
    | .endRecord => ⟨r.finish, started, false⟩ :: scan delimiter .record .empty line line rest

/-- Bytes without a mark of the byte order. -/
def dropByteOrderMark : Bytes → Bytes
  | 0xEF :: 0xBB :: 0xBF :: rest => rest
  | bytes => bytes

/-- The records of a file. -/
def records (delimiter : UInt8) (bytes : Bytes) : List Record :=
  scan delimiter .record .empty 1 1 (dropByteOrderMark bytes)

end SourceTables.Delimited
