import PlayerText.Number.Numeral

/-!
# Shortest decimals

The fewest digits that still name a binary64 number: of all decimals that round to the number
those with the fewest digits, and of those the nearest, a tie going to the even last digit.

* `Interval.ofUnits`: the magnitudes that round to a given one.
* `below`, `above`, `decimalAt?`: the decimals with a given last power of ten.
* `shortest?`: the digits and the power of ten of the shortest decimal.
* `shortestText`: the decimal in writing. It is positional for magnitudes from 1e-5 up to below
  1e16 and then has a fraction, `.0` if nothing else; all others have an exponent with its sign.
-/

namespace PlayerText.Number

/-- The magnitudes that round to one number, in quarters of a unit. -/
structure Interval where
  /-- Where the interval begins. -/
  low : Nat
  /-- Where the interval ends. -/
  high : Nat
  /-- Whether the two ends belong to it. -/
  closed : Bool

/-- What rounds to a magnitude: from halfway to the number below up to halfway to the one above.
The ends go to the even neighbour. -/
def Interval.ofUnits (units : Nat) : Interval :=
  let shift := units.log2 - 52
  let gap := Nat.pow 2 shift
  let mantissa := units / gap
  let below := if mantissa = Nat.pow 2 52 ∧ 0 < shift then gap else 2 * gap
  ⟨4 * units - below, 4 * units + 2 * gap, mantissa % 2 = 0⟩

/-- Whether a quotient of units lies in an interval, at an end only if the ends belong to it. -/
def Interval.contains (interval : Interval) (num den : Nat) : Bool :=
  if interval.closed then interval.low * den ≤ 4 * num ∧ 4 * num ≤ interval.high * den
  else interval.low * den < 4 * num ∧ 4 * num < interval.high * den

/-- The power of ten of the first digit of a magnitude that is not zero. No magnitude is as small as
`10 ^ -400`, so the scaled one has digits. -/
def leadingPower (units : Nat) : Int :=
  (digits (units * Nat.pow 10 400 / one)).length - 401

/-- A decimal as a quotient of units: what stands above the line, -/
def Decimal.num (d : Decimal) : Nat := d.digits * (one * Nat.pow 10 d.power.toNat)

/-- and what stands below it. -/
def Decimal.den (d : Decimal) : Nat := Nat.pow 10 (-d.power).toNat

/-- The multiple of a power of ten next to a magnitude, from below. -/
def below (units : Nat) (power : Int) : Decimal :=
  ⟨units * Nat.pow 10 (-power).toNat / (one * Nat.pow 10 power.toNat), power⟩

/-- The multiple of a power of ten next to a magnitude, from above. -/
def above (units : Nat) (power : Int) : Decimal := ⟨(below units power).digits + 1, power⟩

/-- The nearer one of the two; if they are equally near, the one with the even last digit. -/
def nearer (units : Nat) (power : Int) : Decimal :=
  let low := below units power
  let high := above units power
  let fromLow := units * low.den - low.num
  let fromHigh := high.num - units * high.den
  if fromHigh < fromLow ∨ fromHigh = fromLow ∧ low.digits % 2 = 1 then high else low

/-- The decimal nearest to a magnitude among those with a given last power of ten, if it rounds to
the magnitude. Only the two neighbours of the magnitude can be nearest. -/
def decimalAt? (units : Nat) (power : Int) : Option Decimal :=
  let low := below units power
  let high := above units power
  let interval := Interval.ofUnits units
  match interval.contains low.num low.den, interval.contains high.num high.den with
  | true, true => some (nearer units power)
  | true, false => some low
  | false, true => some high
  | false, false => none

/-- The shortest decimal for a magnitude; seventeen digits are always enough. -/
def shortest? (units : Nat) : Option Decimal :=
  (List.range 17).findSome? fun (n : Nat) => decimalAt? units (leadingPower units - n)

/-- The digits of a decimal without the zeros at its end. -/
def Decimal.significant (d : Decimal) : List Char :=
  ((PlayerText.Number.digits d.digits).reverse.dropWhile (· == '0')).reverse

/-- The power of ten of the last significant digit. -/
def Decimal.lastPower (d : Decimal) : Int :=
  d.power + ((PlayerText.Number.digits d.digits).length - d.significant.length)

/-- A decimal in writing. -/
def Decimal.text (d : Decimal) : String :=
  let point := d.significant.length + d.lastPower
  let zeros (n : Int) := List.replicate n.toNat '0'
  if 0 ≤ d.lastPower ∧ point ≤ 16 then
    String.ofList (d.significant ++ zeros d.lastPower) ++ ".0"
  else if 0 < point ∧ point ≤ 16 then
    String.ofList (d.significant.take point.toNat) ++ "." ++
      String.ofList (d.significant.drop point.toNat)
  else if -5 < point ∧ point ≤ 0 then
    "0." ++ String.ofList (zeros (-point) ++ d.significant)
  else
    let exponent := point - 1
    let tail := d.significant.drop 1
    String.ofList (d.significant.take 1) ++
      (if tail.isEmpty then "" else "." ++ String.ofList tail) ++
      (if exponent < 0 then "e-" else "e+") ++ numeral exponent.natAbs

/-- A magnitude in units of binary64, written with the fewest digits. -/
def shortestText (units : Nat) : String :=
  if units = 0 then "0.0" else (shortest? units).elim "" Decimal.text

end PlayerText.Number
