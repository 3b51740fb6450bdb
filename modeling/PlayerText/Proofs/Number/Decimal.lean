import Mathlib.Algebra.Order.Field.Power
import Mathlib.Data.Nat.Factorization.Basic
import PlayerText.Number.Scaling
import PlayerText.Proofs.Number.Interval
import PlayerText.Proofs.Number.Padded
import PlayerText.Proofs.Number.Rational

/-!
# Decimals as rationals

A decimal is a rational number, and it is rounded to binary64 as any other. What is written of it is
its significant digits: they do not depend on how many zeros it has at its end.

* `Decimal.value`, `Decimal.value_mul_one`: a decimal as a number, and as a quotient of units.
* `Decimal.value_le_rational`, `Decimal.contains_iff_rounded`: a decimal beside a number of units,
  and the decimals that round to it.
* `Decimal.exists_significant_eq`: the significant digits are those of a number that does not end
  in zero.
* `Decimal.length_significant_le_iff`: how many they are.
* `Decimal.representable_magnitude?`: what a decimal is computed to in binary64.
-/

namespace PlayerText.Number

/-- The number that a decimal is. -/
def Decimal.value (d : Decimal) : ℚ := d.digits * 10 ^ d.power

/-! ## Values -/

section Values

variable {d e : Decimal} {q : ℚ} {num den units m n : Nat} {p r : Int}

theorem ten_zpow_pos (p : Int) : (0 : ℚ) < 10 ^ p := zpow_pos (by norm_num) p

theorem ten_zpow_add (p r : Int) : (10 : ℚ) ^ (p + r) = 10 ^ p * 10 ^ r :=
  zpow_add₀ (by norm_num) p r

/-- A power of ten is a quotient of whole ones. -/
theorem ten_zpow_mul (p : Int) : (10 : ℚ) ^ p * 10 ^ (-p).toNat = 10 ^ p.toNat := by
  rw [← zpow_natCast, ← zpow_natCast, ← ten_zpow_add]
  congr 1
  omega

/-- Digits with zeros at their end are the digits without them, at a higher power. -/
theorem value_mul_pow (n : Nat) (p : Int) (k : Nat) :
    (⟨n * 10 ^ k, p⟩ : Decimal).value = (⟨n, p + k⟩ : Decimal).value := by
  rw [Decimal.value, Decimal.value, ten_zpow_add, zpow_natCast]
  push_cast
  ring

theorem Decimal.den_pos (d : Decimal) : 0 < d.den := Nat.pow_pos (by decide)

theorem Decimal.value_nonneg (d : Decimal) : 0 ≤ d.value :=
  mul_nonneg (Nat.cast_nonneg _) (ten_zpow_pos _).le

theorem Decimal.value_pos_iff : 0 < d.value ↔ 0 < d.digits := by
  rw [value, mul_pos_iff_of_pos_right (ten_zpow_pos _), Nat.cast_pos]

theorem Decimal.value_mul_one (d : Decimal) : d.value * one * d.den = d.num := by
  have hpower := ten_zpow_mul d.power
  rw [value, den, num, Nat.pow_eq, Nat.pow_eq]
  push_cast
  rw [← hpower]
  ring

theorem Decimal.one_mul_den_pos (d : Decimal) : (0 : ℚ) < one * d.den :=
  mul_pos cast_one_pos (Nat.cast_pos.mpr d.den_pos)

/-- How far a decimal is from a number of units, as a number. -/
theorem Decimal.value_sub_mul (d : Decimal) (units : Nat) :
    (d.value - rational units) * (one * d.den) = d.num - (units * d.den : Nat) := by
  have hunits := rational_mul_one units
  rw [Int.cast_natCast] at hunits
  rw [sub_mul, ← mul_assoc, d.value_mul_one, ← mul_assoc, hunits, Nat.cast_mul]

theorem Decimal.value_le_rational : d.value ≤ rational units ↔ d.num ≤ units * d.den := by
  rw [← mul_le_mul_iff_of_pos_right d.one_mul_den_pos, ← sub_nonpos, ← sub_mul, value_sub_mul,
    sub_nonpos, Nat.cast_le]

/-- A number that is a quotient of units is rounded as that quotient. -/
theorem rounded_of_quotient (hq : 0 ≤ q) (hden : 0 < den) (h : q * one * den = num) :
    rounded q = rational (nearest num den) := by
  rw [rounded, nearest_congr (q * one).den_pos hden ?_]
  have hunits : ((q * one).num.toNat : ℚ) = q * one * (q * one).den := by
    have htwice := two_mul_eq_div hq
    rw [Nat.cast_mul, Nat.cast_ofNat] at htwice
    linarith
  rw [← Nat.cast_inj (R := ℚ), Nat.cast_mul, Nat.cast_mul, ← h, hunits]
  ring

/-- The decimals in the interval of a magnitude round to it. -/
theorem Decimal.contains_iff_rounded (h : Representable units) :
    (Interval.ofUnits units).contains d.num d.den = true ↔ rounded d.value = rational units := by
  rw [contains_iff h d.den_pos, rounded_of_quotient d.value_nonneg d.den_pos d.value_mul_one,
    rational_inj, Nat.cast_inj]

end Values

/-! ## Significant digits -/

section Significant

variable {d e : Decimal} {m n k : Nat}

theorem digits_mul_ten_pow (hpos : 0 < m) (k : Nat) :
    digits (m * 10 ^ k) = digits m ++ List.replicate k '0' := by
  induction k with
  | zero => rw [pow_zero, mul_one, List.replicate_zero, List.append_nil]
  | succ k ih =>
    have hten : 10 ≤ m * 10 ^ (k + 1) := by
      have hpow := Nat.mul_pos hpos (Nat.pow_pos (n := k) (by decide : 0 < 10))
      rw [pow_succ, ← Nat.mul_assoc]
      omega
    have hdiv : m * 10 ^ (k + 1) / 10 = m * 10 ^ k := by
      rw [pow_succ, ← Nat.mul_assoc, Nat.mul_div_cancel _ (by decide)]
    have hmod : m * 10 ^ (k + 1) % 10 = 0 := by
      rw [pow_succ, ← Nat.mul_assoc, Nat.mul_mod_left]
    rw [digits_of_le hten, hdiv, hmod, ih, List.append_assoc, List.replicate_succ']
    rfl

/-- The last digit of a number that does not end in zero. -/
theorem digits_of_not_dvd (h : ¬10 ∣ m) :
    ∃ ds c, digits m = ds ++ [c] ∧ c ≠ '0' := by
  have hlast : (m % 10).digitChar ≠ '0' := by
    have hdigit : ∀ k < 10, k ≠ 0 → k.digitChar ≠ '0' := by decide
    exact hdigit _ (Nat.mod_lt m (by decide)) fun hzero => h (Nat.dvd_of_mod_eq_zero hzero)
  rcases Nat.lt_or_ge m 10 with hlt | hge
  · rw [Nat.mod_eq_of_lt hlt] at hlast
    exact ⟨[], _, digits_of_lt hlt, hlast⟩
  · exact ⟨_, _, digits_of_le hge, hlast⟩

/-- The significant digits are those of a number that does not end in zero. -/
theorem Decimal.exists_significant_eq (hpos : 0 < d.digits) :
    ∃ m, ¬10 ∣ m ∧ d.significant = PlayerText.Number.digits m ∧
      d.value = (⟨m, d.lastPower⟩ : Decimal).value := by
  obtain ⟨k, m, hm, hdigits⟩ := Nat.exists_eq_pow_mul_and_not_dvd hpos.ne' 10 (by decide)
  have hmpos : 0 < m := Nat.pos_of_ne_zero fun h => hm (h ▸ Nat.dvd_zero 10)
  have hall : PlayerText.Number.digits d.digits =
      PlayerText.Number.digits m ++ List.replicate k '0' := by
    rw [hdigits, Nat.mul_comm, digits_mul_ten_pow hmpos]
  have hsignificant : d.significant = PlayerText.Number.digits m := by
    obtain ⟨ds, c, hds, hc⟩ := digits_of_not_dvd hm
    rw [significant, hall, hds, List.reverse_append, List.reverse_replicate,
      List.dropWhile_append_of_pos (by simp), List.reverse_append, List.reverse_singleton,
      List.singleton_append, List.dropWhile_cons_of_neg (by simpa using hc), List.reverse_cons,
      List.reverse_reverse]
  have hpower : d.lastPower = d.power + k := by
    rw [lastPower, hall, hsignificant, List.length_append, List.length_replicate]
    push_cast
    ring
  refine ⟨m, hm, hsignificant, ?_⟩
  rw [hpower, ← value_mul_pow, Nat.mul_comm, ← hdigits]

theorem length_digits_pos (n : Nat) : 0 < (digits n).length := Nat.length_toDigits_pos

theorem Decimal.length_significant_pos (hpos : 0 < d.digits) : 0 < d.significant.length := by
  obtain ⟨m, -, hsignificant, -⟩ := exists_significant_eq hpos
  exact hsignificant ▸ length_digits_pos m

theorem length_digits_le_iff (hk : 0 < k) : (digits n).length ≤ k ↔ n < 10 ^ k :=
  Nat.length_toDigits_le_iff (by decide) hk

/-- A number is as large as its first digit says. -/
theorem length_digits_spec (hpos : 0 < n) :
    10 ^ ((digits n).length - 1) ≤ n ∧ n < 10 ^ (digits n).length := by
  have hlength := length_digits_pos n
  refine ⟨?_, (length_digits_le_iff hlength).mp (Nat.le_refl _)⟩
  rcases Nat.eq_zero_or_pos ((digits n).length - 1) with hzero | hmore
  · rw [hzero, Nat.pow_zero]
    exact hpos
  · rw [← Nat.not_lt, ← length_digits_le_iff hmore]
    omega

/-- Of the ways to write a number as a decimal the one with the significant digits alone has the
fewest. -/
theorem Decimal.length_significant_le_iff (hpos : 0 < d.digits) :
    d.significant.length ≤ k ↔ ∃ e : Decimal, e.value = d.value ∧ e.digits < 10 ^ k := by
  obtain ⟨m, hm, hsignificant, hvalue⟩ := exists_significant_eq hpos
  rw [hsignificant]
  constructor
  · intro hle
    have hk : 0 < k := Nat.lt_of_lt_of_le (length_digits_pos m) hle
    exact ⟨⟨m, d.lastPower⟩, hvalue.symm, (length_digits_le_iff hk).mp hle⟩
  · rintro ⟨⟨n, p⟩, he, hn⟩
    have hk : 0 < k := by
      rw [← value_pos_iff, ← he, value_pos_iff] at hpos
      refine Nat.pos_of_ne_zero fun hzero => ?_
      rw [hzero, Nat.pow_zero] at hn
      exact absurd hpos (Nat.not_lt.mpr (Nat.le_of_lt_succ hn))
    rw [length_digits_le_iff hk]
    rcases le_or_gt p d.lastPower with hle | hgt
    · obtain ⟨j, hj⟩ := Int.le.dest hle
      rw [hvalue, ← hj, ← value_mul_pow, value, value,
        mul_left_inj' (ten_zpow_pos p).ne', Nat.cast_inj] at he
      dsimp only at he
      exact Nat.lt_of_le_of_lt (he ▸ Nat.le_mul_of_pos_right m (Nat.pow_pos (by decide))) hn
    · -- Then the number would end in zero.
      obtain ⟨j, hj⟩ := Int.lt.dest hgt
      rw [hvalue, ← hj, ← value_mul_pow, value, value,
        mul_left_inj' (ten_zpow_pos d.lastPower).ne', Nat.cast_inj] at he
      dsimp only at he
      exact absurd (he ▸ Dvd.dvd.mul_left (dvd_pow_self 10 (Nat.succ_ne_zero j)) n) hm

end Significant

/-! ## Magnitudes in steps of binary64 -/

section Scaling

variable {d : Decimal} {units : Nat}

theorem representable_scaleUp? {power scaled : Nat} (h : scaleUp? units power = some scaled) :
    Representable scaled := by
  unfold scaleUp? at h
  split at h
  · exact Option.some.inj h ▸ representable_zero
  split at h
  · cases h
  dsimp only at h
  split at h
  · exact Option.some.inj h ▸ representable_nearest _ _
  · cases h

theorem representable_scaleDown (units power : Nat) : Representable (scaleDown units power) := by
  fun_induction scaleDown units power with
  | case1 => exact representable_zero
  | case2 => exact representable_nearest _ _
  | case3 _ _ _ _ ih => exact ih

theorem Decimal.representable_magnitude? (h : d.magnitude? = some units) : Representable units := by
  unfold magnitude? at h
  split at h
  · exact Option.some.inj h ▸ representable_scaleDown _ _
  · exact representable_scaleUp? h

end Scaling

end PlayerText.Number
