import SourceTables.Number.Double
import SourceTables.Number.Integer

/-!
# `SourceTables.Number.Decimal`: doubles as text

A number is an optional sign, digits with at most one point among, before or after them, and an
optional exponent. `inf`, `infinity` and `nan` stand for the special values in any letter case, also
with a sign. The value is the double nearest to the decimal.
-/

set_option autoImplicit false

namespace SourceTables.Number

/-- A decimal `digits · 10 ^ exponent`. -/
structure Decimal where
  digits : Nat
  exponent : Int
deriving DecidableEq

/-- The digits that a text starts with: their value, their count and the rest. -/
def takeDigits (cs : List Char) : List Char × List Char :=
  (cs.takeWhile Char.isDigit, cs.dropWhile Char.isDigit)

/-- The value of a run of digits; nothing counts as zero. -/
def digitsValue (cs : List Char) : Nat :=
  cs.foldl (fun n c => n * 10 + (c.toNat - '0'.toNat)) 0

/-- An exponent with its mark, or nothing. -/
def exponent? : List Char → Option Int
  | [] => some 0
  | c :: rest => if c = 'e' || c = 'E' then integer? rest else none

/-- An unsigned decimal number that takes up the whole text. -/
def decimal? (cs : List Char) : Option Decimal :=
  let whole := takeDigits cs
  let fraction := match whole.2 with
    | '.' :: rest => takeDigits rest
    | rest => ([], rest)
  if whole.1.isEmpty && fraction.1.isEmpty then none
  else (exponent? fraction.2).map fun e =>
    ⟨digitsValue (whole.1 ++ fraction.1), e - Int.ofNat fraction.1.length⟩

/-- The special values, in any letter case. -/
def special? (negative : Bool) (cs : List Char) : Option Float :=
  let word := String.ofList (cs.map Char.toLower)
  if word = "inf" || word = "infinity" then some (ofSignedBits negative infinityBits)
  else if word = "nan" then some (ofSignedBits negative (0x7FF8 <<< 48))
  else none

/-- A number or special value without a sign of its own. -/
def unsignedDouble? (negative : Bool) (cs : List Char) : Option Float :=
  match decimal? cs with
  | some d => some (ofDecimal negative d.digits d.exponent)
  | none => special? negative cs

/-- The double that a text stands for. -/
def doubleList? : List Char → Option Float
  | '+' :: rest => unsignedDouble? false rest
  | '-' :: rest => unsignedDouble? true rest
  | cs => unsignedDouble? false cs

/-- The double that a string stands for. -/
def double? (s : String) : Option Float := doubleList? s.toList

/-- The words for truth values, in any letter case. -/
def truth? (s : String) : Option Bool :=
  let word := s.toList.map Char.toLower
  if word = ['t', 'r', 'u', 'e'] then some true
  else if word = ['f', 'a', 'l', 's', 'e'] then some false
  else none

end SourceTables.Number
