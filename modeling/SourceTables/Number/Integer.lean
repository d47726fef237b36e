/-!
# `SourceTables.Number.Integer`: integers as text

An integer is an optional sign and one or more ASCII digits; nothing else, no blanks and no
separators. `int64?` and `uint64?` add the range of the word, and an unsigned integer has no minus
sign.

Main statement: `fitsInt64_of_int64?` (what is read fits the word).
-/

set_option autoImplicit false

namespace SourceTables.Number

/-- The value of an ASCII digit. -/
def digitValue? (c : Char) : Option Nat :=
  if c.isDigit then some (c.toNat - '0'.toNat) else none

/-- The number that extends `start` by ASCII digits; `none` at any other character. -/
def extendByDigits? : Nat → List Char → Option Nat
  | start, [] => some start
  | start, c :: rest => do extendByDigits? (start * 10 + (← digitValue? c)) rest

/-- One or more ASCII digits. -/
def natOfDigits? : List Char → Option Nat
  | [] => none
  | cs => extendByDigits? 0 cs

/-- An optional sign and digits. -/
def integer? : List Char → Option Int
  | '+' :: rest => (natOfDigits? rest).map Int.ofNat
  | '-' :: rest => (natOfDigits? rest).map (fun n => -Int.ofNat n)
  | cs => (natOfDigits? cs).map Int.ofNat

/-- The integers of a signed word of 64 bits. -/
def fitsInt64 (n : Int) : Bool := Int64.minValue.toInt ≤ n && n ≤ Int64.maxValue.toInt

/-- A signed integer of 64 bits. -/
def int64? (s : String) : Option Int := (integer? s.toList).filter fitsInt64

/-- What is read as a signed word fits it. -/
theorem fitsInt64_of_int64? (s : String) (n : Int) (h : int64? s = some n) : fitsInt64 n := by
  simp only [int64?, Option.filter_eq_some_iff] at h
  exact h.2

/-- An unsigned integer of 64 bits: a plus sign may stand in front, a minus sign may not. -/
def uint64? (s : String) : Option Nat :=
  let digits := match s.toList with
    | '+' :: rest => rest
    | cs => cs
  (natOfDigits? digits).filter (fun n => n < UInt64.size)

end SourceTables.Number
