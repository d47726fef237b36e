import SourceTables.Calendar.Parser
import SourceTables.Error

/-!
# `SourceTables.Delimited.Fault`: what is wrong with delimited text

A file is read twice: once for the names and types of its columns, once for its rows. Lines, records
and rows are counted from one, columns and the fields of the first reading from zero.
-/

set_option autoImplicit false

namespace SourceTables.Delimited

/-- Why a field is no value of its column's type. -/
inductive FieldFault where
  | notOfType (type : DataType)
  | notAnInstant (reason : Calendar.InstantError)
  | outOfRange (instant : Calendar.Instant)

/-- What is wrong with delimited text. -/
inductive Fault where
  /-- In the first reading, a record with another number of fields than the header has. -/
  | unequal (found expected line : Nat)
  /-- In the first reading, a field that is no text. -/
  | notText (field place line : Nat)
  /-- A record that ends too early or goes on for a little. -/
  | fieldCount (record expected found : Nat)
  /-- A record that goes on past the fields that all records left in its batch could have. -/
  | tooManyFields (record expected limit : Nat)
  /-- A field that is no text. -/
  | invalidBytes (record field : Nat)
  /-- A field that is no value of its column's type. -/
  | field (cause : FieldFault) (value : String) (column row : Nat) (fields : List String)

/-- The fields of a row, in brackets. -/
def rowText (fields : List String) : String := "[" ++ ",".intercalate fields ++ "]"

/-- A fault as an error of columns. -/
def Fault.columnError : Fault → ColumnError
  | .unequal found expected line =>
    .records ("Encountered unequal lengths between records on CSV file. Expected " ++ toString found
      ++ " records, found " ++ toString expected ++ " records at line " ++ toString line)
  | .notText number place line =>
    .records ("Encountered UTF-8 error while reading CSV file: invalid utf-8: invalid UTF-8 in field "
      ++ toString number ++ " near byte index " ++ toString place ++ " at line " ++ toString line)
  | .fieldCount record expected found =>
    .records ("incorrect number of fields for line " ++ toString record ++ ", expected "
      ++ toString expected ++ " got " ++ toString found)
  | .tooManyFields record expected limit =>
    .records ("incorrect number of fields for line " ++ toString record ++ ", expected "
      ++ toString expected ++ " got more than " ++ toString limit)
  | .invalidBytes record number =>
    .records ("Encountered invalid UTF-8 data for line " ++ toString record ++ " and field "
      ++ toString number)
  | .field (.notOfType type) value column row fields =>
    .value ("Error while parsing value '" ++ value ++ "' as type '" ++ type.name ++ "' for column "
      ++ toString column ++ " at line " ++ toString row ++ ". Row data: '" ++ rowText fields ++ "'")
  | .field (.notAnInstant reason) value column row _ =>
    .value (inColumn column row ++ reason.message value)
  | .field (.outOfRange instant) _ column row _ =>
    .value (inColumn column row ++ instant.text ++ "+00:00 would overflow 64-bit signed nanoseconds")
where
  /-- Where a point in time stands. -/
  inColumn (column row : Nat) : String :=
    "Error parsing column " ++ toString column ++ " at line " ++ toString row ++ ": Parser error: "

end SourceTables.Delimited
