import PlayerText.Number.Binary64

/-!
# Decimal numerals

* `Decimal`: a number of the form `digits * 10 ^ power`.
* `numeral`: the decimal digits of a natural number.
* `padded width`: at least `width` digits, zeros in front.
* `fixed places`: a magnitude in units of binary64 with a fixed number of decimal places, the exact
  value rounded, halfway cases to the even last digit.
-/

namespace PlayerText.Number

/-- A decimal `digits * 10 ^ power`. -/
structure Decimal where
  /-- The digits as one number. -/
  digits : Nat
  /-- The power of ten of the last digit. -/
  power : Int
  deriving DecidableEq

/-- The decimal digits of a number, without leading zeros; zero is one digit. -/
def digits (n : Nat) : List Char := Nat.toDigits 10 n

/-- A number in decimal. -/
def numeral (n : Nat) : String := String.ofList (digits n)

/-- A number in decimal with zeros in front up to the width. -/
def padded (width n : Nat) : String := String.ofList ((digits n).leftpad width '0')

/-- A magnitude in units of binary64, rounded to a number of decimal places. -/
def fixed (places units : Nat) : String :=
  let scaled := roundHalfEven (units * Nat.pow 10 places) one
  numeral (scaled / Nat.pow 10 places) ++ "." ++ padded places (scaled % Nat.pow 10 places)

end PlayerText.Number
