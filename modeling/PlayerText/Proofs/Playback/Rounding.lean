import PlayerText.Proofs.Number.Rational
import PlayerText.Proofs.Playback.Parts

/-!
# Rounding to milliseconds

The total is the rounded product with a thousand, plus one half in binary64, cut off. Adding one
half and cutting off can go wrong: the sum is itself rounded, and the largest number below one half
gives one. Up to `2 ^ 52` it is the only number that goes wrong, and no time has it as its product
with a thousand.

* `belowHalf`: the largest number below one half.
* `nearest_add_half_div`: with all other numbers below `2 ^ 52` the rounded sum is cut off to the
  same integer as the exact one.
* `nearest_thousand_ne_belowHalf`: a rounded product with a thousand is another number.
* `toNat_roundedMillis`: the total up to `2 ^ 52`.
* `totalMillis_eq_round`: it is the integer nearest to the rounded product.
* `wholeSeconds_of_totalMillis`: the full seconds and minutes of the time itself, against the total.
-/

namespace PlayerText.Number

/-! ## One half more -/

/-- The largest number below one half, in units. -/
def belowHalf : Nat := (2 ^ 53 - 1) * 2 ^ 1020

section Half

variable {e k p u : Nat}

/-- Between two whole numbers, from one on, a number has room for another half. -/
theorem representable_add_half (hp : Representable p) (hk : 0 < k) (hk52 : k < 2 ^ 52)
    (hlow : k * one ≤ p) (hhigh : p + one / 2 ≤ (k + 1) * one) : Representable (p + one / 2) := by
  -- Above the largest power of two up to `k` the steps are `2 ^ 52` to this power.
  have hlog : k.log2 < 52 := (Nat.log2_lt (Nat.ne_of_gt hk)).mpr hk52
  obtain ⟨i, hi⟩ := Nat.exists_eq_add_of_le (Nat.le_of_lt_succ hlog)
  have hone : one = 2 ^ (i + 1) * 2 ^ (k.log2 + 1022) := one_eq_mul (by omega)
  have hhalf : one / 2 = 2 ^ i * 2 ^ (k.log2 + 1022) := by
    rw [hone, pow_succ, Nat.mul_right_comm, Nat.mul_div_cancel _ Nat.two_pos]
  have hpow : ∀ j, 2 ^ (k.log2 + j) * one = 2 ^ (52 + j) * 2 ^ (k.log2 + 1022) := by
    intro j
    have hexp : k.log2 + j + (i + 1) = 52 + j := by omega
    rw [hone, ← Nat.mul_assoc, ← pow_add, hexp]
  have hfirst : 2 ^ 52 * 2 ^ (k.log2 + 1022) ≤ p := by
    calc 2 ^ 52 * 2 ^ (k.log2 + 1022)
        = 2 ^ k.log2 * one := (hpow 0).symm
      _ ≤ k * one := Nat.mul_le_mul_right one (Nat.log2_self_le (Nat.ne_of_gt hk))
      _ ≤ p := hlow
  have hlast : p + one / 2 ≤ 2 ^ 53 * 2 ^ (k.log2 + 1022) := by
    calc p + one / 2
        ≤ (k + 1) * one := hhigh
      _ ≤ 2 ^ (k.log2 + 1) * one := Nat.mul_le_mul_right one Nat.lt_log2_self
      _ = 2 ^ 53 * 2 ^ (k.log2 + 1022) := hpow 1
  exact representable_of_dvd (Nat.dvd_add (hp.dvd hfirst) (hhalf ▸ Nat.dvd_mul_left _ _)) hlast

/-- Below one half a single number is rounded up to one when one half is added. -/
theorem eq_of_one_le_nearest (hone : one = 2 ^ 54 * 2 ^ e) (hp : Representable p)
    (hlt : p + one / 2 < one) (hge : one ≤ nearest (p + one / 2) 1) : p = (2 ^ 53 - 1) * 2 ^ e := by
  have hhalf := half_add_half
  have hpos := Nat.two_pow_pos e
  -- The last number before one is not nearer, so at most half a step is missing.
  have hlast : Representable ((2 ^ 53 - 1) * (2 ^ e * 2)) :=
    ⟨2 ^ 53 - 1, e + 1, by decide, congrArg _ (pow_succ 2 e).symm⟩
  have hmid := add_nearest_le hlast (Nat.lt_of_lt_of_le (by omega) hge)
  obtain ⟨j, rfl⟩ : 2 ^ e ∣ p := hp.dvd (by omega)
  have hlow : 2 ^ 53 - 1 ≤ j :=
    Nat.le_of_mul_le_mul_left (by omega : 2 ^ e * (2 ^ 53 - 1) ≤ 2 ^ e * j) hpos
  have hhigh : j < 2 ^ 53 :=
    Nat.lt_of_mul_lt_mul_left (by omega : 2 ^ e * j < 2 ^ e * 2 ^ 53)
  obtain rfl : j = 2 ^ 53 - 1 := by omega
  exact Nat.mul_comm _ _

/-- One half more and cut off: the rounded sum gives the same integer as the exact one. -/
theorem nearest_add_half_div (hp : Representable p) (hlt : p < 2 ^ 52 * one)
    (hne : p ≠ belowHalf) : nearest (p + one / 2) 1 / one = (p + one / 2) / one := by
  have hhalf := half_add_half
  have hdiv := Nat.div_add_mod' (p + one / 2) one
  have hmod := Nat.mod_lt (p + one / 2) one_units_pos
  generalize (p + one / 2) / one = k at hdiv ⊢
  refine Nat.div_eq_of_lt_le ?_ (Nat.lt_of_not_le fun hge => ?_)
  · have hk : k < 2 ^ 52 + 1 := by
      refine Nat.lt_of_mul_lt_mul_right (a := one) ?_
      rw [Nat.succ_mul]
      omega
    exact mul_one_le_nearest (by omega) (by omega)
  · rw [Nat.succ_mul] at hge
    -- `p` is not nearer than the integer after the sum, so it is not below the one before.
    have hmid := add_nearest_le hp (Nat.lt_of_lt_of_le (by omega) hge)
    have hlow : k * one ≤ p := by omega
    rcases Nat.eq_zero_or_pos k with rfl | hk
    · exact hne (eq_of_one_le_nearest (one_eq_mul rfl) hp (by omega) (by omega))
    · have hk52 : k < 2 ^ 52 := Nat.lt_of_mul_lt_mul_right (Nat.lt_of_le_of_lt hlow hlt)
      have hsum : Representable (p + one / 2) := by
        refine representable_add_half hp hk hk52 hlow ?_
        rw [Nat.succ_mul]
        omega
      rw [nearest_of_representable hsum] at hge
      omega

/-- The one number that goes wrong. -/
example : nearest (belowHalf + one / 2) 1 / one = 1 ∧ (belowHalf + one / 2) / one = 0 := by
  decide +kernel

/-- What is rounded to `2 ^ 53 - 1` steps lies between two midpoints. With a thousandth of it on the
grid it would be a multiple of a thousand smaller steps, and between the midpoints there is none. -/
theorem nearest_thousand_ne (hk : 9 + e = k) (hu : Representable u) :
    nearest (1000 * u) 1 ≠ (2 ^ 53 - 1) * 2 ^ k := by
  intro h
  have hpos := Nat.two_pow_pos e
  have hpow : 2 ^ k = 2 ^ 9 * 2 ^ e := by rw [← hk, pow_add]
  have hbefore : Representable ((2 ^ 53 - 2) * 2 ^ k) := ⟨_, _, by decide, rfl⟩
  have hafter : Representable (2 ^ 53 * 2 ^ k) :=
    representable_of_dvd (Nat.dvd_mul_left _ _) (Nat.le_refl _)
  have hlow := add_nearest_le (n := 1000 * u) hbefore (by omega)
  have hhigh := le_nearest_add (n := 1000 * u) hafter (by omega)
  obtain ⟨w, rfl⟩ : 2 ^ e ∣ u := hu.dvd (by omega)
  have hwlow : 2 ^ 61 - 384 ≤ 500 * w := by
    refine Nat.le_of_mul_le_mul_left ?_ hpos
    rw [Nat.mul_left_comm]
    omega
  have hwhigh : 500 * w ≤ 2 ^ 61 - 128 := by
    refine Nat.le_of_mul_le_mul_left ?_ hpos
    rw [Nat.mul_left_comm]
    omega
  omega

/-- No time has the largest number below one half as its rounded product with a thousand. -/
theorem nearest_thousand_ne_belowHalf (hu : Representable u) : nearest (1000 * u) 1 ≠ belowHalf :=
  nearest_thousand_ne (e := 1011) rfl hu

end Half

end PlayerText.Number

namespace PlayerText.PlaybackTime

open Number

/-! ## Times in units -/

section Units

variable {n : Nat} {x : Binary64} {S : ℚ}

theorem toNat_saturate (n : Nat) : (saturate n).toNat = min n (UInt64.size - 1) :=
  UInt64.toNat_ofNat_of_lt' (Nat.lt_of_le_of_lt (Nat.min_le_right _ _) (by decide))

/-- A magnitude up to `2 ^ 53` has the integer before its point in 64 bits. -/
theorem toNat_saturate_div_one (h : n < 2 ^ 53 * one) : (saturate (n / one)).toNat = n / one := by
  have hlt : n / one < 2 ^ 53 := (Nat.div_lt_iff_lt_mul one_units_pos).mpr h
  have hsize : 2 ^ 53 ≤ UInt64.size - 1 := by decide
  rw [toNat_saturate, Nat.min_eq_left (Nat.le_trans (Nat.le_of_lt hlt) hsize)]

theorem clampSeconds_of_units? {m : Int} (h : x.units? = some m) : clampSeconds x = m.toNat := by
  rw [clampSeconds, h, Option.getD_some]

/-- A time that is not negative is not changed. -/
theorem rational_clampSeconds (hS : x.value? = some S) (hnonneg : 0 ≤ S) :
    rational (clampSeconds x) = S := by
  obtain ⟨m, hm, rfl⟩ := exists_units?_of_value? hS
  have hm0 : 0 ≤ m := rational_le_rational.mp (rational_zero ▸ hnonneg)
  rw [clampSeconds_of_units? hm, Int.toNat_of_nonneg hm0]

/-- What a time is counted as is on the grid. -/
theorem representable_clampSeconds (x : Binary64) : Representable (clampSeconds x) := by
  cases hm : x.units? with
  | none =>
    rw [clampSeconds, hm]
    exact representable_zero
  | some m =>
    rw [clampSeconds_of_units? hm]
    rcases Int.natAbs_eq m with h | h
    · rw [h]
      exact representable_natAbs hm
    · rw [h, Int.toNat_neg_natCast]
      exact representable_zero

end Units

/-! ## The total -/

/-- Up to `2 ^ 52` the sum with one half might as well be exact. -/
theorem toNat_roundedMillis {u : Nat} (hu : Representable u)
    (hlt : nearest (1000 * u) 1 < 2 ^ 52 * one) :
    (roundedMillis u).toNat = (nearest (1000 * u) 1 + one / 2) / one := by
  have hdiv := nearest_add_half_div (representable_nearest (1000 * u) 1) hlt
    (nearest_thousand_ne_belowHalf hu)
  have hhalf := half_add_half
  rw [roundedMillis, hdiv, toNat_saturate_div_one (by omega)]

/-- The total is the integer nearest to the product with a thousand, as binary64 arithmetic has the
product, and a product halfway between two integers goes to the larger one. That binary64 arithmetic
rounds the sum with one half once more never shows. -/
theorem totalMillis_eq_round {seconds : Binary64} {S : ℚ} (hS : seconds.value? = some S)
    (hpos : 0 < S) (hlt : rounded (S * 1000) < 2 ^ 52) :
    let x := rounded (S * 1000)
    ((ofSeconds seconds).totalMillis.toNat : Int) = round x ∧ round x = ⌊x + 1 / 2⌋ ∧
      ⌊rounded (x + 1 / 2)⌋ = ⌊x + 1 / 2⌋ := by
  intro x
  have hx : x = rational (nearest (1000 * clampSeconds seconds) 1 : Nat) := by
    rw [← rounded_rational, rational_mul, rational_clampSeconds hS hpos.le, mul_comm]
    rfl
  have hlt' : nearest (1000 * clampSeconds seconds) 1 < 2 ^ 52 * one :=
    lt_mul_one_units (hx ▸ by exact_mod_cast hlt)
  have htotal := toNat_roundedMillis (representable_clampSeconds seconds) hlt'
  have hdiv := nearest_add_half_div (representable_nearest _ 1) hlt'
    (nearest_thousand_ne_belowHalf (representable_clampSeconds seconds))
  have hfloor :
      ⌊x + 1 / 2⌋ = ((nearest (1000 * clampSeconds seconds) 1 + one / 2) / one : Nat) := by
    rw [hx, rational_add_half, floor_rational]
  refine ⟨?_, round_eq x, ?_⟩
  · rw [round_eq, hfloor, totalMillis_ofSeconds, htotal]
  · rw [hfloor, hx, rational_add_half, rounded_rational, floor_rational, hdiv]

/-- The number next to 0.0005, whose product with a thousand is rounded to one half. -/
theorem totalMillis_eq_round_half :
    let seconds : Binary64 := ⟨0x3f40624dd2f1a9fc⟩
    let x := rounded (1152921504606847 / 2 ^ 61 * 1000)
    (seconds.value? = some (1152921504606847 / 2 ^ 61) ∧ x = 1 / 2 ∧
      (ofSeconds seconds).totalMillis = 1) ∧
      ((ofSeconds seconds).totalMillis.toNat : Int) = round x ∧ round x = ⌊x + 1 / 2⌋ ∧
        ⌊rounded (x + 1 / 2)⌋ = ⌊x + 1 / 2⌋ := by
  intro seconds x
  have hseconds : seconds.value? = some (1152921504606847 / 2 ^ 61) := by decide +kernel
  have hx : x = 1 / 2 := by decide +kernel
  have hlt : x < 2 ^ 52 := by
    rw [hx]
    norm_num
  exact ⟨⟨hseconds, hx, by decide +kernel⟩, totalMillis_eq_round hseconds (by norm_num) hlt⟩

/-! ## Full seconds -/

/-- Between two full seconds a time has its total between theirs, both included. -/
theorem toNat_roundedMillis_bounds {u : Nat} (hu : Representable u)
    (hlt : 1000 * (u + one) < 2 ^ 52 * one) :
    1000 * (u / one) ≤ (roundedMillis u).toNat ∧
      (roundedMillis u).toNat ≤ 1000 * (u / one + 1) := by
  have hdiv := Nat.div_add_mod' u one
  have hmod := Nat.mod_lt u one_units_pos
  have hhalf := half_add_half
  generalize u / one = s at hdiv ⊢
  have hthis : 1000 * s * one = 1000 * (s * one) := Nat.mul_assoc _ _ _
  have hnext : 1000 * (s + 1) * one = 1000 * (s * one + one) := by
    rw [Nat.mul_assoc, Nat.add_mul, Nat.one_mul]
  have hs : 1000 * (s + 1) < 2 ^ 52 :=
    Nat.lt_of_mul_lt_mul_right (by omega : 1000 * (s + 1) * one < 2 ^ 52 * one)
  have hlow : 1000 * s * one ≤ nearest (1000 * u) 1 := mul_one_le_nearest (by omega) (by omega)
  have hhigh : nearest (1000 * u) 1 ≤ 1000 * (s + 1) * one :=
    nearest_le_mul_one (by omega) (by omega)
  rw [toNat_roundedMillis hu (by omega), Nat.le_div_iff_mul_le one_units_pos]
  refine ⟨by omega, Nat.lt_add_one_iff.mp ?_⟩
  rw [Nat.div_lt_iff_lt_mul one_units_pos, Nat.add_mul, Nat.one_mul]
  omega

/-- The full seconds of a time are the time cut off, and the full minutes are theirs. The hours,
minutes and seconds of the rounded total show the same second, or the next one when the
milliseconds have just been rounded up to it. -/
theorem wholeSeconds_of_totalMillis {seconds : Binary64} {S : ℚ} (hS : seconds.value? = some S)
    (hnonneg : 0 ≤ S) (hlt : 1000 * (S + 1) < 2 ^ 52) :
    let t := ofSeconds seconds
    let total := t.totalMillis.toNat
    ∃ s m : Nat, numbers? (t.select 's') = some [s] ∧ numbers? (t.select 'm') = some [m] ∧
      (s : Int) = ⌊S⌋ ∧ m = s / 60 ∧
      total / 1000 = (t.hours.toNat * 60 + t.minutes.toNat) * 60 + t.secs.toNat ∧
      (total / 1000 = s ∨ total / 1000 = s + 1 ∧ t.millis = 0) := by
  intro t total
  obtain rfl := rational_clampSeconds hS hnonneg
  have hlt' : 1000 * (clampSeconds seconds + one) < 2 ^ 52 * one := by
    apply lt_mul_one_units
    rw [rational_mul, ← rational_add_one]
    exact_mod_cast hlt
  obtain ⟨hlow, hhigh⟩ := toNat_roundedMillis_bounds (representable_clampSeconds seconds) hlt'
  obtain ⟨hhours, hminutes, hsecs, hmillis⟩ := toNat_parts seconds
  have htotal : total = (roundedMillis (clampSeconds seconds)).toNat :=
    congrArg UInt64.toNat (totalMillis_ofSeconds seconds)
  have hwhole : t.wholeSeconds.toNat = clampSeconds seconds / one :=
    toNat_saturate_div_one (by omega : clampSeconds seconds < 2 ^ 53 * one)
  refine ⟨t.wholeSeconds.toNat, (t.wholeSeconds / 60).toNat, numbers?_numeral _,
    numbers?_numeral _, ?_, UInt64.toNat_div _ _, ?_, ?_⟩
  · rw [hwhole, floor_rational]
  · rw [hhours, hminutes, hsecs, htotal]
    omega
  · rw [hwhole, htotal, ← UInt64.toNat_inj, hmillis, UInt64.toNat_zero]
    omega

/-- The number next to 59.9996 has 59 full seconds, and 60000 milliseconds. -/
theorem wholeSeconds_of_totalMillis_minute :
    let seconds : Binary64 := ⟨0x404dfff2e48e8a72⟩
    let t := ofSeconds seconds
    let total := t.totalMillis.toNat
    (seconds.value? = some (4222096503162169 / 2 ^ 46) ∧ total = 60000) ∧
      ∃ s m : Nat, numbers? (t.select 's') = some [s] ∧ numbers? (t.select 'm') = some [m] ∧
        (s : Int) = ⌊(4222096503162169 / 2 ^ 46 : ℚ)⌋ ∧ m = s / 60 ∧
        total / 1000 = (t.hours.toNat * 60 + t.minutes.toNat) * 60 + t.secs.toNat ∧
        (total / 1000 = s ∨ total / 1000 = s + 1 ∧ t.millis = 0) := by
  intro seconds t total
  have hseconds : seconds.value? = some (4222096503162169 / 2 ^ 46) := by decide +kernel
  have htotal : total = 60000 := by decide +kernel
  exact ⟨⟨hseconds, htotal⟩, wholeSeconds_of_totalMillis hseconds (by norm_num) (by norm_num)⟩

end PlayerText.PlaybackTime
