import SourceTables.Batch
import SourceTables.Calendar.Instant
import SourceTables.Error
import SourceTables.Number.Text

/-!
# `SourceTables.Cast`: cells under another type

A table's column may be wider than the column of one of its artifacts. Nothing but nulls goes under
every type, numbers become doubles, and everything that is no structure has a text. Nulls stay nulls.

Main statement: `isNull_castCell` (a cast loses no value).
-/

set_option autoImplicit false

namespace SourceTables

open Calendar (Date Instant)

/-- The type of a list's items. -/
def DataType.item : DataType → DataType
  | .list item => item
  | _ => .null

/-- The members of a structure. -/
def DataType.members : DataType → List (Field DataType)
  | .struct fields => fields
  | _ => []

mutual

/-- The text of a cell. A null has none; lists and structures show their parts. -/
def Cell.display (type : DataType) : Cell → String
  | .null => ""
  | .bool value => toString value
  | .int value => toString value
  | .float value => Number.Layout.labelled.text value
  | .text value => value
  | .date days => (Date.ofDays days).text
  | .instant count => match type with
    -- The count alone does not tell its unit.
    | .timestamp unit => (Instant.ofCount unit count).text
    | _ => ""
  | .list items => "[" ++ ", ".intercalate (Cell.itemTexts type.item items) ++ "]"
  | .struct members =>
    "\x7b" ++ ", ".intercalate (Cell.memberTexts type.members members) ++ "\x7d"
termination_by structural c => c

/-- The texts of a list's items. -/
def Cell.itemTexts (type : DataType) : List Cell → List String
  | [] => []
  | c :: rest => c.display type :: Cell.itemTexts type rest
termination_by structural cs => cs

/-- The texts of a structure's members. -/
def Cell.memberTexts (fields : List (Field DataType)) : List Cell → List String
  | [] => []
  | c :: rest => match fields with
    | f :: fields => (f.name ++ ": " ++ c.display f.type) :: Cell.memberTexts fields rest
    | [] => []
termination_by structural cs => cs

end

/-- Whether cells of one type can be put under another. -/
def DataType.castsTo (source target : DataType) : Bool :=
  source = target || source = .null || match source, target with
    | .scalar kind, .float64 => kind.isNumeric
    | .scalar _, .utf8 | .list _, .utf8 => true
    | _, _ => false

/-- A cell under another type. -/
def castCell (source target : DataType) (c : Cell) : Cell :=
  if source = target || c.isNull then c
  else match target, c with
    | .float64, .int value => .float (Number.ofInteger value)
    | .utf8, c => .text (c.display source)
    | _, c => c

/-- The cells of a column under another type, or the reason why there is no such column. -/
def castColumn (source target : DataType) : Except ColumnError (Cell → Cell) :=
  if source.castsTo target then .ok (castCell source target)
  else .error (.cast ("no cast from " ++ source.name ++ " to " ++ target.name))

/-- A cast turns a value into a value and a null into a null. -/
theorem isNull_castCell (source target : DataType) (c : Cell) :
    (castCell source target c).isNull = c.isNull := by
  unfold castCell
  split
  · rfl
  · next h =>
    have hc : c.isNull = false := by
      cases hn : c.isNull <;> simp_all
    split <;> simp_all [Cell.isNull]

end SourceTables
