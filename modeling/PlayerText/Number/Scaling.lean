import PlayerText.Number.Binary64
import PlayerText.Number.Numeral

/-!
# Decimals in steps of binary64

The number of a decimal, computed in binary64 throughout: the digits are rounded, the power of ten
is rounded, and so is their product or quotient. The result can be off by a unit in the last place
from the number nearest to the decimal.

* `scaleUp?`: times a power of ten, if that is finite.
* `scaleDown`: divided by a power of ten, in as many divisions as it takes.
* `Decimal.magnitude?`: the magnitude of a decimal in units of binary64.
-/

namespace PlayerText.Number

/-- A power of ten as a magnitude in units. `10 ^ 308` is the last that is finite. -/
def powerOfTen (n : Nat) : Nat := ofNat (Nat.pow 10 n)

/-- A magnitude times a power of ten. Zero stays zero; all else has to be finite, and so has the
power. -/
def scaleUp? (units power : Nat) : Option Nat :=
  if units = 0 then some 0
  else if 308 < power then none
  else
    let scaled := product units (powerOfTen power)
    if scaled < overflow then some scaled else none

/-- A magnitude divided by a power of ten, by `10 ^ 308` at most at a time. -/
def scaleDown (units power : Nat) : Nat :=
  if units = 0 then 0
  else if power ≤ 308 then quotient units (powerOfTen power)
  else scaleDown (quotient units (powerOfTen 308)) (power - 308)
termination_by power
decreasing_by omega

/-- The magnitude of a decimal, if it is finite. -/
def Decimal.magnitude? (d : Decimal) : Option Nat :=
  if d.power < 0 then some (scaleDown (ofNat d.digits) d.power.natAbs)
  else scaleUp? (ofNat d.digits) d.power.natAbs

end PlayerText.Number
