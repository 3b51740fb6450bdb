/-!
# Binary64 numbers as exact integers

Every finite binary64 number is a whole number of units of `2^-1074`. Magnitudes are counted in
these units, so that all arithmetic on them is exact arithmetic of natural numbers followed by one
rounding.

* `Binary64.units?`: the exact value of a bit pattern.
* `roundHalfEven`: a quotient rounded to the nearest integer, ties to the even one.
* `nearest`: a quotient rounded to the nearest multiple that a binary64 number has, ties to the
  even one. There is no upper limit: `overflow` is the first magnitude that is too large.
* `ofNat`, `product`, `quotient`: a natural number, and the two operations on magnitudes, each
  rounded once.
-/

namespace PlayerText.Number

/-- A binary64 number by its bits: sign, eleven bits of exponent, 52 bits of fraction. -/
structure Binary64 where
  /-- The bit pattern. -/
  bits : UInt64
  deriving DecidableEq

/-- The units in the number one. -/
def one : Nat := Nat.pow 2 1074

/-- The first magnitude, in units, that is above all finite numbers. -/
def overflow : Nat := Nat.pow 2 1024 * one

namespace Binary64

/-- The biased exponent. -/
def exponent (x : Binary64) : Nat := x.bits.toNat / Nat.pow 2 52 % Nat.pow 2 11

/-- The fraction, without the leading one of a normal number. -/
def fraction (x : Binary64) : Nat := x.bits.toNat % Nat.pow 2 52

/-- Whether the sign bit is set. -/
def isNegative (x : Binary64) : Bool := x.bits.toNat / Nat.pow 2 63 == 1

/-- Whether the number is neither infinite nor NaN. -/
def isFinite (x : Binary64) : Bool := x.exponent != 2047

/-- The magnitude in units, of a finite number. -/
def magnitude (x : Binary64) : Nat :=
  if x.exponent = 0 then x.fraction else (Nat.pow 2 52 + x.fraction) * Nat.pow 2 (x.exponent - 1)

/-- The value in units; infinities and NaN have none. -/
def units? (x : Binary64) : Option Int :=
  if x.isFinite then some (if x.isNegative then -(x.magnitude : Int) else x.magnitude) else none

end Binary64

/-- `num / den` rounded to the nearest integer, halfway cases to the even one. -/
def roundHalfEven (num den : Nat) : Nat :=
  let q := num / den
  let r := num % den
  if 2 * r < den then q else if den < 2 * r then q + 1 else q + q % 2

/-- The nearest multiple of a unit to `num / den` units that has 53 significant bits, halfway cases
to the one with an even last bit. -/
def nearest (num den : Nat) : Nat :=
  let q := num / den
  if q < Nat.pow 2 53 then roundHalfEven num den
  else
    let shift := Nat.pow 2 (q.log2 - 52)
    roundHalfEven num (den * shift) * shift

/-- A natural number as a magnitude in units. -/
def ofNat (n : Nat) : Nat := nearest (n * one) 1

/-- The product of two magnitudes in units. -/
def product (a b : Nat) : Nat := nearest (a * b) one

/-- The quotient of two magnitudes in units; the second one is not zero. -/
def quotient (a b : Nat) : Nat := nearest (a * one) b

end PlayerText.Number
