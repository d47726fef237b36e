/-!
# `SourceTables.Number.Double`: rounding to double precision

A double is one of finitely many rationals `m · 2 ^ q`. `roundRatio num den` gives the bits of the
double nearest to `num / den`, ties to the even mantissa, in exact arithmetic on natural numbers;
what lies beyond the greatest double is infinite. `decode` is the other direction.
-/

set_option autoImplicit false

namespace SourceTables.Number

/-- The bits of infinity. -/
def infinityBits : Nat := 0x7FF <<< 52

/-- A quotient rounded to the nearest natural number, ties to the even one. -/
def roundHalfEven (num den : Nat) : Nat :=
  let q := num / den
  let twice := 2 * (num % den)
  if twice < den then q
  else if den < twice then q + 1
  else q + q % 2

/-- `num / den` in units of `2 ^ s`, rounded to the nearest, ties to even. -/
def roundInUnits (num den : Nat) (s : Int) : Nat :=
  if 0 ≤ s then roundHalfEven num (den <<< s.toNat) else roundHalfEven (num <<< (-s).toNat) den

/-- The greatest `s` with `2 ^ s ≤ num / den`, for positive `num` and `den`. -/
def log2Ratio (num den : Nat) : Int :=
  let guess : Int := Int.ofNat num.log2 - Int.ofNat den.log2
  let reached := if 0 ≤ guess then den <<< guess.toNat ≤ num else den ≤ num <<< (-guess).toNat
  if reached then guess else guess - 1

/-- The bits of the double nearest to `num / den`, for positive `den`. The unit in the last place is
never below `2 ^ -1074`; a mantissa that rounds up to the next power of two carries into the
exponent by itself. -/
def roundRatio (num den : Nat) : Nat :=
  if num = 0 then 0
  else
    let s := max (log2Ratio num den - 52) (-1074)
    min (((s + 1074).toNat <<< 52) + roundInUnits num den s) infinityBits

/-- The double with these bits and this sign. -/
def ofSignedBits (negative : Bool) (bits : Nat) : Float :=
  Float.ofBits (UInt64.ofNat (if negative then bits + (1 <<< 63) else bits))

/-- The double nearest to an integer. -/
def ofInteger (n : Int) : Float := ofSignedBits (n < 0) (roundRatio n.natAbs 1)

/-- The double nearest to `m · 10 ^ e`. A value outside `10 ^ ±400` is decided by its size alone. -/
def ofDecimal (negative : Bool) (m : Nat) (e : Int) : Float :=
  -- About the number of decimal digits; it may be one off, which the bounds leave room for.
  let digits : Int := Int.ofNat (m.log2 * 30103 / 100000)
  if m = 0 then ofSignedBits negative 0
  else if digits + e > 400 then ofSignedBits negative infinityBits
  else if digits + e < -400 then ofSignedBits negative 0
  else if 0 ≤ e then ofSignedBits negative (roundRatio (m * Nat.pow 10 e.toNat) 1)
  else ofSignedBits negative (roundRatio m (Nat.pow 10 (-e).toNat))

/-- A finite double without its sign: `mantissa · 2 ^ exponent`. -/
structure Binary where
  mantissa : Nat
  exponent : Int
deriving DecidableEq

/-- The sign of a double, also of a zero. -/
def isNegative (x : Float) : Bool := x.toBits.toNat ≥ 1 <<< 63

/-- The size of a finite double. -/
def decode (x : Float) : Binary :=
  let bits := x.toBits.toNat % (1 <<< 63)
  let biased := bits >>> 52
  let fraction := bits % (1 <<< 52)
  if biased = 0 then ⟨fraction, -1074⟩ else ⟨fraction + (1 <<< 52), Int.ofNat biased - 1075⟩

/-- The integer part of a finite double, toward zero. -/
def truncate (x : Float) : Int :=
  let b := decode x
  let size := if 0 ≤ b.exponent then b.mantissa <<< b.exponent.toNat
    else b.mantissa >>> (-b.exponent).toNat
  if isNegative x then -Int.ofNat size else Int.ofNat size

end SourceTables.Number
