import SourceTables.Number.Double

/-!
# `SourceTables.Number.Text`: how doubles are written

All written doubles use the fewest digits that read back. Each finite double is the nearest double to
all decimals of an interval around it. `shortest` finds the fewest digits of any decimal in that
interval and, among those decimals, the one nearest to the value. All arithmetic is on natural numbers.

Two layouts differ in what surrounds the digits: `plain` never uses an exponent and writes whole
numbers without a fraction; `labelled` always shows that a number is no integer and changes to an
exponent far from one.
-/

set_option autoImplicit false

namespace SourceTables.Number

/-! ### The fewest digits that read back -/

/-- The decimals that round to a positive double, as quarters of its unit over a common scale:
`low` and `high` bound them, `value` is the double itself. -/
structure Interval where
  low : Nat
  value : Nat
  high : Nat
  /-- What one stands for: all three are divided by it. -/
  scale : Nat
  /-- Whether the ends belong to the interval. -/
  closed : Bool

/-- The interval of a positive double. Below a power of two the neighbour is half as far away. -/
def Binary.interval (b : Binary) : Interval :=
  let nearBelow := b.mantissa = 1 <<< 52 && b.exponent > -1074
  let low := 4 * b.mantissa - (if nearBelow then 1 else 2)
  let shift := b.exponent - 2
  let lift := fun n => if 0 ≤ shift then n <<< shift.toNat else n
  { low := lift low
    value := lift (4 * b.mantissa)
    high := lift (4 * b.mantissa + 2)
    scale := if 0 ≤ shift then 1 else 1 <<< (-shift).toNat
    closed := b.mantissa % 2 = 0 }

/-- `n · 10 ^ k` as a quotient: numerator and denominator. -/
def atExponent (n : Nat) (k : Int) : Nat × Nat :=
  if 0 ≤ k then (n * Nat.pow 10 k.toNat, 1) else (n, Nat.pow 10 (-k).toNat)

/-- Whether `n · 10 ^ k` lies in an interval. -/
def Interval.holds (i : Interval) (n : Nat) (k : Int) : Bool :=
  let (num, den) := atExponent n k
  let point := num * i.scale
  if i.closed then i.low * den ≤ point && point ≤ i.high * den
  else i.low * den < point && point < i.high * den

/-- The distance of `n · 10 ^ k` from the value, over the scale times the grid's denominator. -/
def Interval.distance (i : Interval) (n : Nat) (k : Int) : Nat :=
  let (num, den) := atExponent n k
  let point := num * i.scale
  let value := i.value * den
  if point ≤ value then value - point else point - value

/-- The greatest `n` with `n · 10 ^ k` at most the value. -/
def Interval.floorAt (i : Interval) (k : Int) : Nat :=
  if 0 ≤ k then i.value / (i.scale * Nat.pow 10 k.toNat)
  else i.value * Nat.pow 10 (-k).toNat / i.scale

/-- The decimal of the grid `10 ^ k` that stands for the value: of the two neighbours the nearer one
in the interval, the even one of two equally near. -/
def Interval.onGrid? (i : Interval) (k : Int) : Option Nat :=
  let below := i.floorAt k
  let above := below + 1
  match i.holds below k, i.holds above k with
  | true, true =>
    let down := i.distance below k
    let up := i.distance above k
    if down < up then some below
    else if up < down then some above
    -- Both are as near: the even one, as when reading.
    else some (if below % 2 = 0 then below else above)
  | true, false => some below
  | false, true => some above
  | false, false => none

/-- The digits before the point of a positive quotient, or minus the zeros after the point. -/
def digitsBeforePoint (num den : Nat) : Int :=
  if den ≤ num then Int.ofNat (Nat.toDigits 10 (num / den)).length
  else -Int.ofNat (leadingZeros num 400)
where
  /-- How many of the first `fuel` digits after the point are zero before another digit comes. -/
  leadingZeros (num : Nat) : Nat → Nat
    | 0 => 0
    | fuel + 1 => if den ≤ num * 10 then 0 else leadingZeros (num * 10) fuel + 1

/-- A decimal by its digits, most significant first, and where its point stands: the value is
`0.d₁d₂… · 10 ^ point`. -/
structure Digits where
  digits : List Char
  point : Int
deriving DecidableEq

/-- A digit string without the zeros it ends with. -/
def dropTrailingZeros (cs : List Char) : List Char := (cs.reverse.dropWhile (· == '0')).reverse

/-- The first grid, coarse to fine, that holds a decimal for the value. -/
def Interval.search (i : Interval) (point : Int) (count fuel : Nat) : Digits :=
  match fuel with
  | 0 => ⟨[], point⟩
  | fuel + 1 =>
    -- `count` digits from the first one on.
    let k := point - Int.ofNat count
    match i.onGrid? k with
    | some n =>
      let digits := Nat.toDigits 10 n
      ⟨dropTrailingZeros digits, Int.ofNat digits.length + k⟩
    | none => i.search point (count + 1) fuel

/-- The fewest digits that read back as a positive finite double, nearest to it. -/
def shortest (x : Float) : Digits :=
  let i := (decode x).interval
  i.search (digitsBeforePoint i.value i.scale) 1 20

/-! ### Layouts -/

/-- How the digits of a number are laid out. -/
structure Layout where
  /-- Positions of the point at which no exponent is needed; `none` means all. -/
  positional : Option (Int × Int)
  /-- Whether a whole number ends in `.0`. -/
  marksWhole : Bool

/-- No exponent, no fraction where there is none. -/
def Layout.plain : Layout := ⟨none, false⟩

/-- `.0` after whole numbers, and an exponent unless the number lies within
`10 ^ -5 ≤ x < 10 ^ 16`. -/
def Layout.labelled : Layout := ⟨some (-4, 16), true⟩

/-- Digits in positional notation. -/
def positionalText (marksWhole : Bool) (d : Digits) : List Char :=
  let count := Int.ofNat d.digits.length
  if count ≤ d.point then
    d.digits ++ List.replicate (d.point - count).toNat '0' ++ (if marksWhole then ['.', '0'] else [])
  else if 0 < d.point then
    d.digits.take d.point.toNat ++ '.' :: d.digits.drop d.point.toNat
  else
    '0' :: '.' :: (List.replicate (-d.point).toNat '0' ++ d.digits)

/-- Digits in scientific notation, one digit before the point. -/
def scientificText (d : Digits) : List Char :=
  let power := 'e' :: (toString (d.point - 1)).toList
  match d.digits with
  | first :: [] => first :: power
  | first :: rest => first :: '.' :: rest ++ power
  | [] => power

/-- The text of a positive finite number. -/
def Layout.positiveText (layout : Layout) (x : Float) : List Char :=
  let d := shortest x
  match layout.positional with
  | some (low, high) =>
    if low ≤ d.point && d.point ≤ high then positionalText layout.marksWhole d
    else scientificText d
  | none => positionalText layout.marksWhole d

/-- The text of a double. -/
def Layout.text (layout : Layout) (x : Float) : String :=
  let sign := if isNegative x then "-" else ""
  if x.isNaN then "NaN"
  else if x.isInf then sign ++ "inf"
  else if (decode x).mantissa = 0 then sign ++ (if layout.marksWhole then "0.0" else "0")
  else sign ++ String.ofList (layout.positiveText x)

end SourceTables.Number
