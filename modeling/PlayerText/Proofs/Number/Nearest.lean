import Mathlib.Algebra.Order.Ring.Nat
import Mathlib.Tactic.Ring
import PlayerText.Number.Binary64

/-!
# Rounding to nearest

Magnitudes are counted in units of binary64, and those that a binary64 number has are a grid: up to
`2 ^ 53` units all of them, above that multiples of the power of two that leaves 53 bits. `nearest`
picks from this grid. All that later arguments need to know of it is on which side of the midpoint
of two grid points a quotient lies; no distances are computed.

* `Representable`: at most 53 bits and a power of two.
* `Representable.dvd`: from `2 ^ 52` steps on there is nothing between the steps.
* `exists_nearest_eq`: the power of two that `nearest` rounds at.
* `representable_nearest`, `mid_le_of_lt_nearest`, `le_mid_of_nearest_lt`: it gives a grid point,
  and no other grid point is nearer.
* `exists_steps_nearest`: a tie goes to an even number of steps.
* `nearest_of_representable`, `nearest_mono`: grid points stay, and the order is kept.
* `exists_units?_nearest`: below `overflow` there is a number with the rounded magnitude, and in a
  tie its last bit is zero.
-/

namespace PlayerText.Number

/-! ## The grid -/

/-- A magnitude that a binary64 number has, if there is no upper limit. -/
def Representable (n : Nat) : Prop := ∃ m e : Nat, m < 2 ^ 53 ∧ n = m * 2 ^ e

section Grid

variable {e k n : Nat}

/-- The number one as a whole number of larger steps. -/
theorem one_eq_mul (h : k + e = 1074) : one = 2 ^ k * 2 ^ e := by
  unfold one
  rw [← h, Nat.pow_eq, pow_add]

theorem one_units_pos : 0 < one := by
  unfold one
  generalize 1074 = e
  exact Nat.two_pow_pos e

/-- One is an even number of units. -/
theorem half_add_half : one / 2 + one / 2 = one := by
  have hone : one = 2 ^ 1 * 2 ^ 1073 := one_eq_mul rfl
  generalize 2 ^ 1073 = half at hone
  omega

theorem representable_zero : Representable 0 := ⟨0, 0, by decide, rfl⟩

/-- Up to `2 ^ 53` steps of one size all multiples of the step are on the grid. -/
theorem representable_of_dvd (hdvd : 2 ^ e ∣ n) (hle : n ≤ 2 ^ 53 * 2 ^ e) : Representable n := by
  obtain ⟨m, rfl⟩ := hdvd
  have hm : m ≤ 2 ^ 53 := by
    rw [Nat.mul_comm] at hle
    exact Nat.le_of_mul_le_mul_right hle (Nat.two_pow_pos e)
  rcases Nat.lt_or_eq_of_le hm with hm | rfl
  · exact ⟨m, e, hm, Nat.mul_comm _ _⟩
  · exact ⟨2 ^ 52, e + 1, by decide, by ring⟩

/-- From `2 ^ 52` steps of one size on, only multiples of the step are on the grid. -/
theorem Representable.dvd (h : Representable n) (hle : 2 ^ 52 * 2 ^ e ≤ n) : 2 ^ e ∣ n := by
  obtain ⟨m, i, hm, rfl⟩ := h
  rcases Nat.lt_or_ge i e with hi | hi
  · have hlt : m * 2 ^ i < 2 ^ 53 * 2 ^ i := Nat.mul_lt_mul_of_pos_right hm (Nat.two_pow_pos i)
    have hstep : 2 ^ 53 * 2 ^ i ≤ 2 ^ 52 * 2 ^ e := by
      rw [← pow_add, ← pow_add]
      exact Nat.pow_le_pow_right (by decide) (by omega)
    omega
  · exact Dvd.dvd.mul_left (Nat.pow_dvd_pow 2 hi) m

/-- Whole numbers up to `2 ^ 53` are on the grid. -/
theorem representable_mul_one (hk : k ≤ 2 ^ 53) : Representable (k * one) := by
  rw [one_eq_mul (Nat.zero_add 1074), Nat.pow_zero, Nat.one_mul]
  exact representable_of_dvd (Nat.dvd_mul_left _ k) (Nat.mul_le_mul_right _ hk)

/-- The magnitude of every number is on the grid. -/
theorem representable_magnitude (x : Binary64) : Representable x.magnitude := by
  have hfraction : x.fraction < 2 ^ 52 := Nat.mod_lt _ (by decide)
  unfold Binary64.magnitude
  split
  · exact ⟨x.fraction, 0, by omega, (Nat.mul_one _).symm⟩
  · exact ⟨2 ^ 52 + x.fraction, x.exponent - 1, by omega, rfl⟩

/-- So is, without its sign, the value of every finite number. -/
theorem representable_natAbs {x : Binary64} {n : Int} (h : x.units? = some n) :
    Representable n.natAbs := by
  have hn : n.natAbs = x.magnitude := by
    unfold Binary64.units? at h
    split at h
    · obtain rfl := Option.some.inj h
      split
      · exact (Int.natAbs_neg _).trans (Int.natAbs_natCast _)
      · exact Int.natAbs_natCast _
    · cases h
  exact hn ▸ representable_magnitude x

end Grid

/-! ## One rounding to an integer -/

section Integer

variable {num den k : Nat}

theorem roundHalfEven_cases (num den : Nat) :
    (roundHalfEven num den = num / den ∧ 2 * (num % den) ≤ den) ∨
      (roundHalfEven num den = num / den + 1 ∧ den ≤ 2 * (num % den)) := by
  unfold roundHalfEven
  dsimp only
  split
  · exact .inl ⟨rfl, by omega⟩
  · split
    · exact .inr ⟨rfl, by omega⟩
    · rcases Nat.mod_two_eq_zero_or_one (num / den) with h | h
      · exact .inl ⟨by omega, by omega⟩
      · exact .inr ⟨by omega, by omega⟩

theorem div_le_roundHalfEven (num den : Nat) : num / den ≤ roundHalfEven num den := by
  rcases roundHalfEven_cases num den with ⟨hr, -⟩ | ⟨hr, -⟩ <;> omega

theorem roundHalfEven_le (num den : Nat) : roundHalfEven num den ≤ num / den + 1 := by
  rcases roundHalfEven_cases num den with ⟨hr, -⟩ | ⟨hr, -⟩ <;> omega

/-- An integer up to the quotient is no nearer than the rounded one. -/
theorem mid_le_of_le_div (h : k ≤ num / den) :
    (k + roundHalfEven num den) * den ≤ 2 * num := by
  have hnum := Nat.div_add_mod' num den
  rcases roundHalfEven_cases num den with ⟨hr, hrem⟩ | ⟨hr, hrem⟩ <;> rw [hr]
  · have hle : (k + num / den) * den ≤ (2 * (num / den)) * den :=
      Nat.mul_le_mul_right den (by omega)
    rw [Nat.mul_assoc] at hle
    omega
  · have hle : (k + (num / den + 1)) * den ≤ (2 * (num / den) + 1) * den :=
      Nat.mul_le_mul_right den (by omega)
    rw [Nat.succ_mul, Nat.mul_assoc] at hle
    omega

/-- An integer above the rounded quotient is no nearer. -/
theorem le_mid_of_roundHalfEven_lt (hden : 0 < den) (h : roundHalfEven num den < k) :
    2 * num ≤ (roundHalfEven num den + k) * den := by
  have hnum := Nat.div_add_mod' num den
  have hlt := Nat.mod_lt num hden
  rcases roundHalfEven_cases num den with ⟨hr, hrem⟩ | ⟨hr, hrem⟩ <;> rw [hr] at h ⊢
  · have hle : (2 * (num / den) + 1) * den ≤ (num / den + k) * den :=
      Nat.mul_le_mul_right den (by omega)
    rw [Nat.succ_mul, Nat.mul_assoc] at hle
    omega
  · have hle : (2 * (num / den) + 2) * den ≤ (num / den + 1 + k) * den :=
      Nat.mul_le_mul_right den (by omega)
    rw [Nat.add_mul, Nat.mul_assoc] at hle
    omega

/-- Halfway between two integers the even one is taken. -/
theorem roundHalfEven_even (hden : 0 < den) (hk : k ≠ roundHalfEven num den)
    (hmid : 2 * num = (k + roundHalfEven num den) * den) : roundHalfEven num den % 2 = 0 := by
  have hnum := Nat.div_add_mod' num den
  have hlt := Nat.mod_lt num hden
  have hlow : 2 * (num / den) ≤ k + roundHalfEven num den := by
    refine Nat.le_of_mul_le_mul_right (Nat.le_trans ?_ (Nat.le_of_eq hmid)) hden
    rw [Nat.mul_assoc]
    omega
  have hhigh : k + roundHalfEven num den < 2 * (num / den) + 2 := by
    refine Nat.lt_of_mul_lt_mul_right (Nat.lt_of_le_of_lt (Nat.le_of_eq hmid.symm) ?_)
    rw [Nat.add_mul, Nat.mul_assoc]
    omega
  rcases Nat.lt_or_ge (2 * (num / den)) (k + roundHalfEven num den) with hodd | heven
  · -- The two integers differ by one, and the remainder is one half.
    have hsum : k + roundHalfEven num den = 2 * (num / den) + 1 := by omega
    rw [hsum, Nat.add_mul, Nat.mul_assoc] at hmid
    unfold roundHalfEven
    dsimp only
    rw [if_neg (by omega), if_neg (by omega)]
    omega
  · -- There is no remainder, and the two integers are the same.
    have hsum : k + roundHalfEven num den = 2 * (num / den) := by omega
    rw [hsum, Nat.mul_assoc] at hmid
    have hexact : roundHalfEven num den = num / den := if_pos (by omega)
    omega

end Integer

/-! ## Rounding to the grid -/

section Nearest

variable {num den k m n : Nat}

/-- A quotient is rounded as a number of steps. Steps larger than a unit are so large that they
leave 53 bits. -/
theorem exists_nearest_eq (num den : Nat) :
    ∃ e : Nat, nearest num den = roundHalfEven num (den * 2 ^ e) * 2 ^ e ∧
      num / (den * 2 ^ e) < 2 ^ 53 ∧ (e = 0 ∨ 2 ^ 52 ≤ num / (den * 2 ^ e)) := by
  unfold nearest
  simp only [Nat.pow_eq]
  split
  · exact ⟨0, by simp, by simpa using ‹_›, .inl rfl⟩
  · have hq : num / den ≠ 0 := by omega
    have hlog : 53 ≤ (num / den).log2 := (Nat.le_log2 hq).mpr (by omega)
    refine ⟨(num / den).log2 - 52, rfl, ?_, .inr ?_⟩
    · rw [← Nat.div_div_eq_div_mul, Nat.div_lt_iff_lt_mul (Nat.two_pow_pos _), ← pow_add]
      have hadd : 53 + ((num / den).log2 - 52) = (num / den).log2 + 1 := by omega
      rw [hadd]
      exact Nat.lt_log2_self
    · rw [← Nat.div_div_eq_div_mul, Nat.le_div_iff_mul_le (Nat.two_pow_pos _), ← pow_add]
      have hadd : 52 + ((num / den).log2 - 52) = (num / den).log2 := by omega
      rw [hadd]
      exact Nat.log2_self_le hq

/-- What is rounded is on the grid. -/
theorem representable_nearest (num den : Nat) : Representable (nearest num den) := by
  obtain ⟨e, he, hlt, -⟩ := exists_nearest_eq num den
  have hle := roundHalfEven_le num (den * 2 ^ e)
  rw [he]
  exact representable_of_dvd (Nat.dvd_mul_left _ _) (Nat.mul_le_mul_right _ (by omega))

/-- Between the steps there are points of the grid only before the first `2 ^ 52` steps. -/
theorem Representable.dvd_or_lt {e : Nat} (hk : Representable k)
    (hsteps : e = 0 ∨ 2 ^ 52 ≤ num / (den * 2 ^ e)) :
    2 ^ e ∣ k ∨ k < 2 ^ 52 * 2 ^ e ∧ 2 ^ 52 ≤ num / (den * 2 ^ e) := by
  rcases hsteps with rfl | hsteps
  · exact .inl (Nat.one_dvd k)
  · rcases Nat.lt_or_ge k (2 ^ 52 * 2 ^ e) with hlt | hle
    · exact .inr ⟨hlt, hsteps⟩
    · exact .inl (hk.dvd hle)

/-- A point of the grid below the rounded quotient is no nearer. -/
theorem mid_le_of_lt_nearest (hk : Representable k) (h : k < nearest num den) :
    (k + nearest num den) * den ≤ 2 * num := by
  obtain ⟨e, he, -, hsteps⟩ := exists_nearest_eq num den
  have hround := roundHalfEven_le num (den * 2 ^ e)
  rw [he] at h ⊢
  obtain ⟨j, hkj, hj⟩ : ∃ j, k ≤ j * 2 ^ e ∧ j ≤ num / (den * 2 ^ e) := by
    rcases hk.dvd_or_lt hsteps with ⟨j, rfl⟩ | ⟨hlt, hle⟩
    · rw [Nat.mul_comm] at h ⊢
      have hj : j < roundHalfEven num (den * 2 ^ e) := Nat.lt_of_mul_lt_mul_right h
      exact ⟨j, Nat.le_refl _, by omega⟩
    · exact ⟨2 ^ 52, Nat.le_of_lt hlt, hle⟩
  calc (k + roundHalfEven num (den * 2 ^ e) * 2 ^ e) * den
      ≤ (j * 2 ^ e + roundHalfEven num (den * 2 ^ e) * 2 ^ e) * den :=
        Nat.mul_le_mul_right den (Nat.add_le_add_right hkj _)
    _ = (j + roundHalfEven num (den * 2 ^ e)) * (den * 2 ^ e) := by ring
    _ ≤ 2 * num := mid_le_of_le_div hj

/-- A point of the grid above the rounded quotient is no nearer. -/
theorem le_mid_of_nearest_lt (hden : 0 < den) (hk : Representable k) (h : nearest num den < k) :
    2 * num ≤ (nearest num den + k) * den := by
  obtain ⟨e, he, -, hsteps⟩ := exists_nearest_eq num den
  have hround := div_le_roundHalfEven num (den * 2 ^ e)
  rw [he] at h ⊢
  obtain ⟨j, rfl⟩ : 2 ^ e ∣ k := by
    rcases hk.dvd_or_lt hsteps with hdvd | ⟨hlt, hle⟩
    · exact hdvd
    · have hstep := Nat.lt_of_mul_lt_mul_right (Nat.lt_trans h hlt)
      omega
  rw [Nat.mul_comm (2 ^ e) j] at h ⊢
  have hj : roundHalfEven num (den * 2 ^ e) < j := Nat.lt_of_mul_lt_mul_right h
  calc 2 * num
      ≤ (roundHalfEven num (den * 2 ^ e) + j) * (den * 2 ^ e) :=
        le_mid_of_roundHalfEven_lt (Nat.mul_pos hden (Nat.two_pow_pos e)) hj
    _ = (roundHalfEven num (den * 2 ^ e) * 2 ^ e + j * 2 ^ e) * den := by ring

/-- A rounded quotient is a number of steps, and where another point of the grid is as near, the
number is even. -/
theorem exists_steps_nearest (num : Nat) (hden : 0 < den) :
    ∃ e m, nearest num den = m * 2 ^ e ∧ m ≤ 2 ^ 53 ∧ (e = 0 ∨ 2 ^ 52 ≤ m) ∧
      ∀ k, Representable k → k ≠ nearest num den → 2 * num = (k + nearest num den) * den →
        m % 2 = 0 := by
  obtain ⟨e, he, hbits, hsteps⟩ := exists_nearest_eq num den
  have hlow := div_le_roundHalfEven num (den * 2 ^ e)
  have hhigh := roundHalfEven_le num (den * 2 ^ e)
  refine ⟨e, _, he, by omega, by omega, fun k hk hne hmid => ?_⟩
  have hpos : 0 < den * 2 ^ e := Nat.mul_pos hden (Nat.two_pow_pos e)
  rw [he] at hne hmid
  rcases hk.dvd_or_lt hsteps with ⟨j, rfl⟩ | ⟨hlt', hle⟩
  · refine roundHalfEven_even hpos (k := j) (fun h => hne (by rw [h, Nat.mul_comm])) ?_
    rw [hmid]
    ring
  · -- The first of the steps is between `k` and the quotient.
    have hfirst := mid_le_of_le_div hle
    rw [hmid] at hfirst
    have hcontra : (k + roundHalfEven num (den * 2 ^ e) * 2 ^ e) * den <
        (2 ^ 52 + roundHalfEven num (den * 2 ^ e)) * (den * 2 ^ e) := by
      calc (k + roundHalfEven num (den * 2 ^ e) * 2 ^ e) * den
          < (2 ^ 52 * 2 ^ e + roundHalfEven num (den * 2 ^ e) * 2 ^ e) * den :=
            Nat.mul_lt_mul_of_pos_right (Nat.add_lt_add_right hlt' _) hden
        _ = (2 ^ 52 + roundHalfEven num (den * 2 ^ e)) * (den * 2 ^ e) := by ring
    exact absurd hfirst (Nat.not_le.mpr hcontra)

theorem add_nearest_le (hk : Representable k) (h : k < nearest n 1) :
    k + nearest n 1 ≤ 2 * n :=
  Nat.mul_one (k + nearest n 1) ▸ mid_le_of_lt_nearest hk h

theorem le_nearest_add (hk : Representable k) (h : nearest n 1 < k) :
    2 * n ≤ nearest n 1 + k :=
  Nat.mul_one (nearest n 1 + k) ▸ le_mid_of_nearest_lt Nat.one_pos hk h

/-- A point of the grid is its own rounding. -/
theorem nearest_of_representable (h : Representable n) : nearest n 1 = n := by
  rcases Nat.lt_trichotomy n (nearest n 1) with hlt | heq | hgt
  · have hmid := add_nearest_le h hlt
    omega
  · exact heq.symm
  · have hmid := le_nearest_add h hgt
    omega

/-- Rounding keeps the order. -/
theorem nearest_mono (h : m ≤ n) : nearest m 1 ≤ nearest n 1 := by
  rcases Nat.lt_or_eq_of_le h with hlt | rfl
  · refine Nat.le_of_not_lt fun hgt => ?_
    have hlow := add_nearest_le (representable_nearest n 1) hgt
    have hhigh := le_nearest_add (representable_nearest m 1) hgt
    omega
  · exact Nat.le_refl _

/-- Rounding down does not pass a whole number. -/
theorem mul_one_le_nearest (hk : k ≤ 2 ^ 53) (h : k * one ≤ n) : k * one ≤ nearest n 1 :=
  nearest_of_representable (representable_mul_one hk) ▸ nearest_mono h

/-- Rounding up does not pass a whole number. -/
theorem nearest_le_mul_one (hk : k ≤ 2 ^ 53) (h : n ≤ k * one) : nearest n 1 ≤ k * one :=
  nearest_of_representable (representable_mul_one hk) ▸ nearest_mono h

end Nearest

/-! ## The number with the rounded magnitude -/

/-- The number with a given exponent and fraction, and no sign. -/
theorem units?_of_fields {exponent fraction : Nat} (hexponent : exponent < 2047)
    (hfraction : fraction < 2 ^ 52) :
    (Binary64.mk (UInt64.ofNat (exponent * 2 ^ 52 + fraction))).units? =
      some ((if exponent = 0 then fraction
        else (2 ^ 52 + fraction) * 2 ^ (exponent - 1) : Nat) : Int) := by
  have hbits : (UInt64.ofNat (exponent * 2 ^ 52 + fraction)).toNat =
      exponent * 2 ^ 52 + fraction := by
    rw [UInt64.toNat_ofNat']
    omega
  have hx : (Binary64.mk (UInt64.ofNat (exponent * 2 ^ 52 + fraction))).exponent = exponent := by
    simp only [Binary64.exponent, hbits, Nat.pow_eq]
    omega
  have hf : (Binary64.mk (UInt64.ofNat (exponent * 2 ^ 52 + fraction))).fraction = fraction := by
    simp only [Binary64.fraction, hbits, Nat.pow_eq]
    omega
  have hsign : (Binary64.mk (UInt64.ofNat (exponent * 2 ^ 52 + fraction))).isNegative = false := by
    simp only [Binary64.isNegative, hbits, Nat.pow_eq, beq_eq_false_iff_ne]
    omega
  simp only [Binary64.units?, Binary64.isFinite, Binary64.magnitude, hx, hf, hsign, Nat.pow_eq]
  rw [if_pos (bne_iff_ne.mpr (Nat.ne_of_lt hexponent))]
  rfl

theorem overflow_eq_pow : overflow = 2 ^ (1024 + 1074) := by
  unfold overflow one
  generalize 1024 = a
  generalize 1074 = b
  exact (pow_add 2 a b).symm

/-- A magnitude below `overflow` has fewer than 2098 bits. -/
theorem lt_of_mul_lt_overflow {e m k : Nat} (hm : 2 ^ k ≤ m) (h : m * 2 ^ e < overflow) :
    k + e < 1024 + 1074 := by
  rw [overflow_eq_pow] at h
  generalize 1024 + 1074 = bits at h ⊢
  refine (Nat.pow_lt_pow_iff_right (by decide : 1 < 2)).mp (Nat.lt_of_le_of_lt ?_ h)
  rw [pow_add]
  exact Nat.mul_le_mul_right _ hm

/-- The number with a given number of steps. The bits count the steps of all sizes, one size after
the other. -/
theorem units?_of_steps {e m : Nat} (hle : m ≤ 2 ^ 53) (hsteps : e = 0 ∨ 2 ^ 52 ≤ m)
    (hlt : m * 2 ^ e < overflow) :
    (Binary64.mk (UInt64.ofNat (e * 2 ^ 52 + m))).units? = some ((m * 2 ^ e : Nat) : Int) := by
  rcases Nat.lt_or_ge m (2 ^ 52) with hsmall | hlarge
  · obtain rfl : e = 0 := by omega
    rw [units?_of_fields (by decide) hsmall, if_pos rfl, Nat.pow_zero, Nat.mul_one]
  · rcases Nat.lt_or_eq_of_le hle with hnormal | rfl
    · have he := lt_of_mul_lt_overflow hlarge hlt
      obtain ⟨fraction, rfl⟩ := Nat.exists_eq_add_of_le hlarge
      have hbits : e * 2 ^ 52 + (2 ^ 52 + fraction) = (e + 1) * 2 ^ 52 + fraction := by omega
      rw [hbits, units?_of_fields (by omega) (by omega), if_neg (Nat.succ_ne_zero e),
        Nat.add_sub_cancel]
    · -- The last step of one size is the first of the next.
      have he := lt_of_mul_lt_overflow (Nat.le_refl _) hlt
      have hbits : e * 2 ^ 52 + 2 ^ 53 = (e + 2) * 2 ^ 52 + 0 := by omega
      rw [hbits, units?_of_fields (by omega) (by decide), if_neg (Nat.succ_ne_zero (e + 1))]
      congr 2
      rw [Nat.add_zero, Nat.add_sub_assoc (by decide), pow_add]
      omega

/-- Below `overflow` the rounded magnitude is that of a number, and if another point of the grid is
as near, the last bit of the number is zero. -/
theorem exists_units?_nearest {num den : Nat} (hden : 0 < den) (hlt : nearest num den < overflow) :
    ∃ x : Binary64, x.units? = some (nearest num den : Int) ∧
      ∀ k, Representable k → k ≠ nearest num den → 2 * num = (k + nearest num den) * den →
        x.bits.toNat % 2 = 0 := by
  obtain ⟨e, m, he, hle, hsteps, htie⟩ := exists_steps_nearest num hden
  rw [he] at hlt
  refine ⟨Binary64.mk (UInt64.ofNat (e * 2 ^ 52 + m)), ?_, fun k hk hne hmid => ?_⟩
  · rw [he]
    exact units?_of_steps hle hsteps hlt
  · have heven := htie k hk hne hmid
    rw [UInt64.toNat_ofNat']
    omega

end PlayerText.Number
