import SourceTables.Number.Integer
import SourceTables.Schema
import SourceTables.Text.Character

/-!
# `SourceTables.Delimited.Inference`: the types of columns of texts

Each field is of one kind, by its form. A column that has seen integers and decimals holds doubles, one
that has seen dates and points in time holds the finest of them, one that has seen a single kind holds
that, and any other mix holds texts. Empty fields say nothing.
-/

set_option autoImplicit false

namespace SourceTables.Delimited

/-- What a field looks like. -/
inductive Kind where
  | truth
  | integer
  | decimal
  | date
  | instant (unit : TimeUnit)
  | text
deriving DecidableEq

/-- A text without the digits that it starts with, and how many there were. -/
def dropDigits (cs : List Char) : Nat × List Char :=
  ((cs.takeWhile Text.isDecimalDigit).length, cs.dropWhile Text.isDecimalDigit)

/-- A text without its minus sign. -/
def dropMinus : List Char → List Char
  | '-' :: rest => rest
  | cs => cs

/-- Whether a text is a truth value. Letter case does not count, and the long s is an s. -/
def looksTrue (cs : List Char) : Bool :=
  let fold : Char → Char := fun c => if c.toNat = 0x17F then 's' else c.toLower
  let word := cs.map fold
  word = ['t', 'r', 'u', 'e'] || word = ['f', 'a', 'l', 's', 'e']

/-- Whether a text consists of digits after at most one minus sign. -/
def looksInteger (cs : List Char) : Bool :=
  let (count, rest) := dropDigits (dropMinus cs)
  0 < count && rest.isEmpty

/-- Whether a text is an exponent with its mark. -/
def looksExponent : List Char → Bool
  | [] => false
  | e :: rest =>
    let digits := match rest with
      | '+' :: digits | '-' :: digits => digits
      | digits => digits
    let (count, after) := dropDigits digits
    (e = 'e' || e = 'E') && 0 < count && after.isEmpty

/-- Whether a text is a decimal number with a point, an exponent or both. -/
def looksDecimal (cs : List Char) : Bool :=
  let (whole, rest) := dropDigits (dropMinus cs)
  match rest with
  | '.' :: rest =>
    let (fraction, rest) := dropDigits rest
    0 < whole + fraction && (rest.isEmpty || looksExponent rest)
  | rest => 0 < whole && looksExponent rest

/-- Reads digits (`d`), a date's separator (`T` for `T` or a space) and other characters as they are
from the start of a text. -/
def afterForm : List Char → List Char → Option (List Char)
  | [], cs => some cs
  | _ :: _, [] => none
  | mark :: marks, c :: rest =>
    let fits :=
      if mark = 'd' then Text.isDecimalDigit c
      else if mark = 'T' then c = 'T' || c = ' '
      else c = mark
    if fits then afterForm marks rest else none

/-- Whether a line feed follows the first character: whatever stands after a time must be on one
line. -/
def brokenLine : List Char → Bool
  | [] => false
  | _ :: rest => rest.contains '\n'

/-- The unit that so many digits of a fraction need. -/
def unitOfDigits (count : Nat) : Option TimeUnit :=
  if count = 0 then none
  else if count ≤ 3 then some .millisecond
  else if count ≤ 6 then some .microsecond
  else if count ≤ 9 then some .nanosecond
  else none

/-- The unit of a point in time, if a text looks like one. -/
def instantUnit? (cs : List Char) : Option TimeUnit :=
  match afterForm "dddd-dd-ddTdd:dd:dd".toList cs with
  | none => none
  | some ('.' :: rest) =>
    let (count, after) := dropDigits rest
    if brokenLine after then none else unitOfDigits count
  | some [] => some .second
  | some (c :: rest) =>
    if Text.isDecimalDigit c || rest.contains '\n' then none else some .second

/-- Texts of doubles that are no decimal numbers. -/
def specialTexts : List String := ["NaN", "nan", "inf", "-inf"]

/-- What a field looks like. An integer of nineteen bytes or more that is out of range is a text. -/
def Kind.ofText (s : String) : Kind :=
  let cs := s.toList
  if looksTrue cs then .truth
  else if looksInteger cs then
    if 19 ≤ s.utf8ByteSize && (Number.int64? s).isNone then .text else .integer
  else if looksDecimal cs then .decimal
  else if afterForm "dddd-dd-dd".toList cs = some [] then .date
  -- A form decides before any value is read: the thirteenth month looks like a date.
  else match instantUnit? cs with
    | some unit => .instant unit
    | none => if specialTexts.contains s then .decimal else .text

/-- How fine a kind of date or point in time is. -/
def Kind.fineness? : Kind → Option Nat
  | .date => some 0
  | .instant .second => some 1
  | .instant .millisecond => some 2
  | .instant .microsecond => some 3
  | .instant .nanosecond => some 4
  | .truth | .integer | .decimal | .text => none

/-- The type of a kind on its own. -/
def Kind.dataType : Kind → DataType
  | .truth => .boolean
  | .integer => .int64
  | .decimal => .float64
  | .date => .date
  | .instant unit => .timestamp unit
  | .text => .utf8

/-- The kind of a column that has seen two kinds. -/
def Kind.join (a b : Kind) : Kind :=
  if a = b then a
  else match a, b with
    | .integer, .decimal | .decimal, .integer => .decimal
    | _, _ => match a.fineness?, b.fineness? with
      -- Dates and points in time meet in the finer of the two.
      | some m, some n => if m ≤ n then b else a
      | _, _ => .text

/-- The type of a column of fields. -/
def columnType (fields : List String) : DataType :=
  match (fields.filter (fun s => !s.isEmpty)).map Kind.ofText with
  | [] => .null
  | k :: rest => (rest.foldl Kind.join k).dataType

end SourceTables.Delimited
