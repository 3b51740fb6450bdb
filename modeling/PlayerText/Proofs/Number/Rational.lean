import Mathlib.Algebra.Order.Round
import Mathlib.Data.Rat.Floor
import Mathlib.Tactic.FieldSimp
import Mathlib.Tactic.Linarith
import PlayerText.Proofs.Number.Nearest

/-!
# Binary64 numbers as rationals

Units are for computing. What a number of units stands for is a rational number, and rounding is
stated there once and for all: of all binary64 numbers, told by their bits, the rounded one is
nearest to the exact one, and of two that are equally near it is the one with an even last bit.

* `rational`, `Binary64.value?`: the exact value of a number of units, and of a bit pattern.
* `rounded`: the value that binary64 arithmetic has for an exact result.
* `rounded_nearest`: what rounding means.
* `rounded_mono`, `rounded_of_representable`: the order is kept, and so is what needs no rounding.
* `rounded_rational`, `floor_rational`, `rational_add_half`: values as numbers of units.
-/

namespace PlayerText.Number

/-- What a number of units stands for. -/
def rational (units : Int) : ℚ := units / one

/-- The exact value of a number; infinities and NaN have none. -/
def Binary64.value? (x : Binary64) : Option ℚ := x.units?.map rational

/-- An exact result that is not negative as binary64 arithmetic has it: rounded to nearest, halfway
cases to even, without an upper limit. -/
def rounded (q : ℚ) : ℚ := rational (nearest (q * one).num.toNat (q * one).den)

theorem cast_one_pos : (0 : ℚ) < (one : ℚ) := Nat.cast_pos.mpr one_units_pos

/-! ## Values as numbers of units -/

section Units

variable {m n : Int} {x : Binary64} {q : ℚ}

theorem rational_mul_one (n : Int) : rational n * one = n :=
  div_mul_cancel₀ _ cast_one_pos.ne'

theorem rational_le_rational : rational m ≤ rational n ↔ m ≤ n := by
  rw [rational, rational, div_le_div_iff_of_pos_right cast_one_pos, Int.cast_le]

theorem rational_lt_rational : rational m < rational n ↔ m < n := by
  rw [rational, rational, div_lt_div_iff_of_pos_right cast_one_pos, Int.cast_lt]

theorem rational_inj : rational m = rational n ↔ m = n := by
  rw [rational, rational, div_left_inj' cast_one_pos.ne', Int.cast_inj]

theorem rational_zero : rational 0 = 0 := by
  rw [rational, Int.cast_zero, zero_div]

/-- A multiple in units. -/
theorem rational_mul (k m : Nat) : rational (k * m : Nat) = k * rational m := by
  rw [rational, rational, Int.cast_natCast, Int.cast_natCast, Nat.cast_mul, mul_div_assoc]

/-- Whole numbers in units. -/
theorem rational_mul_one_units (k : Nat) : rational (k * one : Nat) = k := by
  rw [rational_mul, rational, Int.cast_natCast, div_self cast_one_pos.ne', mul_one]

theorem rational_add (k m : Nat) : rational (k + m : Nat) = rational k + rational m := by
  rw [rational, rational, rational, Int.cast_natCast, Nat.cast_add, add_div, Int.cast_natCast,
    Int.cast_natCast]

theorem rational_add_one (m : Nat) : rational m + 1 = rational (m + one : Nat) := by
  rw [rational, rational, Int.cast_natCast, Int.cast_natCast, Nat.cast_add, add_div,
    div_self cast_one_pos.ne']

/-- A bound in whole numbers is a bound in units. -/
theorem lt_mul_one_units {m k : Nat} (h : rational m < k) : m < k * one := by
  rw [← rational_mul_one_units, rational_lt_rational, Int.ofNat_lt] at h
  exact h

/-- A value is that of a number of units. -/
theorem exists_units?_of_value? (h : x.value? = some q) :
    ∃ n, x.units? = some n ∧ rational n = q :=
  Option.map_eq_some_iff.mp h

/-- The largest whole number in a number of units. -/
theorem floor_rational (n : Nat) : ⌊rational n⌋ = (n / one : Nat) := by
  rw [rational, Int.cast_natCast, Rat.floor_natCast_div_natCast, Int.natCast_div]

/-- One half is half as many units as one. -/
theorem rational_add_half (n : Nat) : rational n + 1 / 2 = rational (n + one / 2 : Nat) := by
  have hhalf : ((one / 2 : Nat) : ℚ) = one / 2 := by
    refine eq_div_of_mul_eq two_ne_zero ?_
    rw [mul_two, ← Nat.cast_add, half_add_half]
  have hpos := cast_one_pos
  rw [rational, rational, Int.cast_natCast, Int.cast_natCast, Nat.cast_add, hhalf]
  field_simp

/-- Whole units are rounded as they are. -/
theorem rounded_rational (n : Nat) : rounded (rational n) = rational (nearest n 1) := by
  rw [rounded, rational_mul_one]
  rfl

end Units

/-! ## What rounding means -/

section Rounded

variable {k : Nat} {q : ℚ}

/-- The exact result as a quotient of units. -/
theorem two_mul_eq_div (hq : 0 ≤ q) :
    2 * q * one * (q * one).den = ((2 * (q * one).num.toNat : Nat) : ℚ) := by
  have hnum : (((q * one).num.toNat : Nat) : ℚ) = (q * one).num := by
    have hnonneg : 0 ≤ (q * one).num := Rat.num_nonneg.mpr (mul_nonneg hq cast_one_pos.le)
    rw [← Int.cast_natCast, Int.toNat_of_nonneg hnonneg]
  have hden := Rat.mul_den_eq_num (q * one)
  rw [Nat.cast_mul, hnum, ← hden]
  ring

theorem rational_add_mul (k m den : Nat) :
    (rational k + rational m) * one * den = (((k + m) * den : Nat) : ℚ) := by
  rw [add_mul, rational_mul_one, rational_mul_one]
  push_cast
  ring

/-- A point of the grid is on the far side of the midpoint between it and the rounded value. -/
theorem mid_rounded (hq : 0 ≤ q) (hk : Representable k) :
    (rational k < rounded q → rational k + rounded q ≤ 2 * q) ∧
      (rounded q < rational k → 2 * q ≤ rounded q + rational k) := by
  have hden : (0 : ℚ) < one * (q * one).den :=
    mul_pos cast_one_pos (Nat.cast_pos.mpr (q * one).den_pos)
  have hq2 := two_mul_eq_div hq
  unfold rounded
  rw [rational_lt_rational, rational_lt_rational, Int.ofNat_lt, Int.ofNat_lt]
  refine ⟨fun h => ?_, fun h => ?_⟩
  · refine le_of_mul_le_mul_right ?_ hden
    rw [← mul_assoc, ← mul_assoc, rational_add_mul, hq2, Nat.cast_le]
    exact mid_le_of_lt_nearest hk h
  · refine le_of_mul_le_mul_right ?_ hden
    rw [← mul_assoc, ← mul_assoc, rational_add_mul, hq2, Nat.cast_le]
    exact le_mid_of_nearest_lt (q * one).den_pos hk h

/-- Rounding keeps the order of the exact results. -/
theorem rounded_mono {r : ℚ} (hq : 0 ≤ q) (hle : q ≤ r) : rounded q ≤ rounded r := by
  refine le_of_not_gt fun hgt => ?_
  have hr : 0 ≤ r := hq.trans hle
  have hlow := (mid_rounded hq (representable_nearest (r * one).num.toNat (r * one).den)).1 hgt
  have hhigh := (mid_rounded hr (representable_nearest (q * one).num.toNat (q * one).den)).2 hgt
  rw [← rounded] at hlow hhigh
  obtain rfl : q = r := by linarith
  exact lt_irrefl _ hgt

/-- What a number has is not rounded. -/
theorem rounded_of_representable (hk : Representable k) : rounded (rational k) = rational k := by
  rw [rounded_rational, nearest_of_representable hk]

/-- No point of the grid is nearer than the rounded value. -/
theorem abs_sub_rounded_le (hq : 0 ≤ q) (hk : Representable k) :
    |q - rounded q| ≤ |q - rational k| := by
  obtain ⟨hlow, hhigh⟩ := mid_rounded hq hk
  rcases lt_trichotomy (rational k) (rounded q) with hlt | heq | hgt
  · have hmid := hlow hlt
    rw [abs_of_nonneg (by linarith : 0 ≤ q - rational k), abs_le]
    constructor <;> linarith
  · rw [heq]
  · have hmid := hhigh hgt
    rw [abs_of_nonpos (by linarith : q - rational k ≤ 0), abs_le]
    constructor <;> linarith

/-- If another point of the grid is as near, the exact result is halfway between the two. -/
theorem mid_of_abs_sub_eq (hne : rational k ≠ rounded q)
    (heq : |q - rounded q| = |q - rational k|) : 2 * q = rational k + rounded q := by
  rcases abs_eq_abs.mp heq with h | h
  · exact absurd (by linarith) hne
  · linarith

/-- An exact result is rounded to the value of a number, unless it is too large. No number is
nearer, whatever its bits are, and where another number is as near, the last bit is zero. -/
theorem rounded_nearest (hq : 0 ≤ q) (hlt : rounded q < rational overflow) :
    ∃ x : Binary64, x.value? = some (rounded q) ∧ ∀ (y : Binary64) (v : ℚ), y.value? = some v →
      |q - rounded q| ≤ |q - v| ∧
        (v ≠ rounded q → |q - rounded q| = |q - v| → x.bits.toNat % 2 = 0) := by
  rw [rounded, rational_lt_rational, Int.ofNat_lt] at hlt
  obtain ⟨x, hx, heven⟩ := exists_units?_nearest (q * one).den_pos hlt
  refine ⟨x, congrArg (Option.map rational) hx, fun y v hv => ?_⟩
  obtain ⟨n, hn, rfl⟩ := exists_units?_of_value? hv
  have hk := representable_natAbs hn
  rcases lt_or_ge n 0 with hneg | hpos
  · -- Zero is nearer than a negative number.
    have hzero : |q - rounded q| ≤ |q - rational 0| :=
      abs_sub_rounded_le hq representable_zero
    have hv : rational n < 0 := rational_zero ▸ rational_lt_rational.mpr hneg
    rw [rational_zero, sub_zero, abs_of_nonneg hq] at hzero
    rw [abs_of_pos (by linarith : 0 < q - rational n)]
    exact ⟨by linarith, fun _ heq => absurd heq (by linarith)⟩
  · obtain ⟨k, rfl⟩ := Int.eq_ofNat_of_zero_le hpos
    refine ⟨abs_sub_rounded_le hq hk, fun hne heq => heven k hk ?_ ?_⟩
    · exact fun h => hne (congrArg (fun m : Nat => rational m) h)
    · have hmid := mid_of_abs_sub_eq hne heq
      have hunits := two_mul_eq_div hq
      rw [hmid, rounded, rational_add_mul, Nat.cast_inj] at hunits
      exact hunits.symm

end Rounded

end PlayerText.Number
