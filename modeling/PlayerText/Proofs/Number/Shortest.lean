import PlayerText.Proofs.Number.Decimal

/-!
# The shortest decimal of a number

Of the multiples of one power of ten only the two next to a magnitude matter: if any other rounds
to it, then so does the one of the two on that side, and it is nearer. A decimal with few digits is
such a multiple, or else it lies below the power of ten that the magnitude begins with, which then
takes its place. So the search, which asks for one digit more each time, stops at the fewest digits
that there are, and seventeen are always enough.

* `rounded_of_close`: how close to a magnitude a number has to be to round to it.
* `below_le`, `lt_above`, `exists_neighbour`: the multiples of a power of ten next to a magnitude.
* `decimalAt?_of_rounded`, `decimalAt?_noFarther`: where a multiple rounds to the magnitude, the
  nearest one is found.
* `leadingPower_spec`: the power of ten that a magnitude begins with.
* `exists_multiple`, `exists_seventeen`: decimals with few digits are among the multiples, and with
  seventeen digits one of the neighbours rounds to the magnitude.
* `exists_shortest?`: the shortest decimal rounds to the magnitude; no other one that does has fewer
  digits, and none with as many is nearer.
-/

namespace PlayerText.Number

/-! ## Close to a magnitude -/

section Close

variable {units k : Nat} {q r : ℚ}

/-- From a magnitude to the next there is at least one part in `2 ^ 53`, up and down. -/
theorem Representable.exists_gap (h : Representable units) (hk : Representable k)
    (hne : k ≠ units) :
    ∃ gap, units ≤ 2 ^ 53 * gap ∧ (k + gap ≤ units ∨ units + gap ≤ k) := by
  rcases Nat.lt_or_gt_of_ne hne with hlt | hgt
  · obtain ⟨m, e, hnorm, rfl⟩ := h.exists_pred (Nat.zero_lt_of_lt hlt)
    have hle := (hnorm.le_or_le hk).resolve_right (Nat.not_le.mpr hlt)
    refine ⟨2 ^ e, Nat.mul_le_mul_right _ hnorm.lt, .inl ?_⟩
    rw [Nat.add_mul, Nat.one_mul]
    exact Nat.add_le_add_right hle _
  · obtain ⟨m, e, hnorm, rfl⟩ := h.exists_normalized
    have hle := (hnorm.le_or_le hk).resolve_left (Nat.not_le.mpr hgt)
    refine ⟨2 ^ e, Nat.mul_le_mul_right _ hnorm.lt.le, .inr ?_⟩
    rwa [Nat.add_mul, Nat.one_mul] at hle

theorem Representable.rational_le_abs_sub (h : Representable units) (hk : Representable k)
    (hne : k ≠ units) : rational units ≤ 2 ^ 53 * |rational k - rational units| := by
  obtain ⟨gap, hunits, hgap⟩ := h.exists_gap hk hne
  have habs : rational gap ≤ |rational k - rational units| := by
    rw [le_abs]
    rcases hgap with hle | hle <;> rw [← Int.ofNat_le, ← rational_le_rational, rational_add] at hle
    · right
      linarith
    · left
      linarith
  calc rational units ≤ rational (2 ^ 53 * gap : Nat) :=
        rational_le_rational.mpr (Int.ofNat_le.mpr hunits)
    _ = 2 ^ 53 * rational gap := by
        rw [rational_mul]
        push_cast
        rfl
    _ ≤ 2 ^ 53 * |rational k - rational units| := by
        gcongr

/-- What is nearer to a magnitude than one part in `2 ^ 54` rounds to it. -/
theorem rounded_of_close (hq : 0 ≤ q) (h : Representable units)
    (hclose : 2 ^ 54 * |q - rational units| < rational units) : rounded q = rational units := by
  by_contra hne
  have hk := representable_nearest (q * one).num.toNat (q * one).den
  have hapart : rational units ≤ 2 ^ 53 * |rounded q - rational units| :=
    h.rational_le_abs_sub hk fun heq => hne (congrArg (fun n : Nat => rational n) heq)
  have hnear := abs_sub_rounded_le hq h
  have htriangle := abs_sub_le (rounded q) q (rational units)
  rw [abs_sub_comm (rounded q) q] at htriangle
  linarith

/-- What lies between a magnitude and a smaller number that rounds to it rounds to it as well, and
is nearer, -/
theorem rounded_of_le (h : Representable units) (hr : 0 ≤ r) (hround : rounded r = rational units)
    (hrq : r ≤ q) (hq : q ≤ rational units) :
    rounded q = rational units ∧ (q = r ∨ |q - rational units| < |r - rational units|) := by
  refine ⟨le_antisymm ?_ ?_, ?_⟩
  · exact rounded_of_representable h ▸ rounded_mono (hr.trans hrq) hq
  · exact hround ▸ rounded_mono hr hrq
  · rcases hrq.eq_or_lt with rfl | hlt
    · exact .inl rfl
    · right
      rw [abs_of_nonpos (by linarith), abs_of_nonpos (by linarith)]
      linarith

/-- and so does what lies between it and a larger one. -/
theorem rounded_of_ge (h : Representable units) (hround : rounded r = rational units)
    (hqr : q ≤ r) (hq : rational units ≤ q) :
    rounded q = rational units ∧ (q = r ∨ |q - rational units| < |r - rational units|) := by
  have hunits : 0 ≤ rational units :=
    rational_zero ▸ rational_le_rational.mpr (Int.natCast_nonneg _)
  refine ⟨le_antisymm ?_ ?_, ?_⟩
  · exact hround ▸ rounded_mono (hunits.trans hq) hqr
  · exact rounded_of_representable h ▸ rounded_mono hunits hq
  · rcases hqr.eq_or_lt with rfl | hlt
    · exact .inl rfl
    · right
      rw [abs_of_nonneg (by linarith), abs_of_nonneg (by linarith)]
      linarith

end Close

/-! ## The neighbours of a magnitude -/

/-- One decimal is no farther from a number than another one. If it is not nearer either, its last
digit is even. -/
structure Decimal.NoFarther (d e : Decimal) (q : ℚ) : Prop where
  le : |d.value - q| ≤ |e.value - q|
  even : |d.value - q| = |e.value - q| → d.value = e.value ∨ d.digits % 2 = 0

section Neighbours

variable {units : Nat} {power : Int} {d e : Decimal} {q : ℚ}

theorem Decimal.NoFarther.of_lt (h : |d.value - q| < |e.value - q|) : d.NoFarther e q :=
  ⟨h.le, fun heq => absurd heq h.ne⟩

theorem Decimal.NoFarther.of_value_eq (h : d.value = e.value) : d.NoFarther e q :=
  ⟨(congrArg (|· - q|) h).le, fun _ => .inl h⟩

theorem Decimal.NoFarther.trans_of_eq_or_lt {c : Decimal} (h : d.NoFarther c q)
    (hc : c.value = e.value ∨ |c.value - q| < |e.value - q|) : d.NoFarther e q := by
  rcases hc with heq | hlt
  · exact ⟨heq ▸ h.le, heq ▸ h.even⟩
  · exact .of_lt (h.le.trans_lt hlt)

theorem value_above (units : Nat) (power : Int) :
    (above units power).value = (below units power).value + 10 ^ power := by
  rw [Decimal.value, Decimal.value, above, Nat.cast_add_one, add_one_mul]
  rfl

theorem below_le (units : Nat) (power : Int) : (below units power).value ≤ rational units :=
  Decimal.value_le_rational.mpr (Nat.div_mul_le_self _ _)

theorem lt_above (units : Nat) (power : Int) : rational units < (above units power).value := by
  rw [← not_le, Decimal.value_le_rational, Nat.not_le]
  exact Nat.lt_mul_of_div_lt (Nat.lt_succ_self _)
    (Nat.mul_pos one_units_pos (Nat.pow_pos (by decide)))

theorem value_le_value_iff (h : d.power = e.power) : d.value ≤ e.value ↔ d.digits ≤ e.digits := by
  rw [Decimal.value, Decimal.value, h, mul_le_mul_iff_left₀ (ten_zpow_pos _), Nat.cast_le]

/-- No multiple lies between the two. -/
theorem le_below_or_above_le (units : Nat) (h : e.power = power) :
    e.value ≤ (below units power).value ∨ (above units power).value ≤ e.value := by
  rw [value_le_value_iff h, value_le_value_iff h.symm]
  exact Nat.lt_or_ge _ _ |>.imp_left Nat.le_of_lt_succ

/-- If some multiple rounds to the magnitude, then so does the neighbour on its side. -/
theorem exists_neighbour (hunits : Representable units) (h : e.power = power)
    (he : rounded e.value = rational units) :
    ∃ c, (c = below units power ∨ c = above units power) ∧ rounded c.value = rational units ∧
      (c.value = e.value ∨ |c.value - rational units| < |e.value - rational units|) := by
  rcases le_below_or_above_le units h with hle | hle
  · exact ⟨_, .inl rfl, rounded_of_le hunits e.value_nonneg he hle (below_le units power)⟩
  · exact ⟨_, .inr rfl, rounded_of_ge hunits he hle (lt_above units power).le⟩

/-! ## The nearest one that rounds to it -/

theorem abs_below_sub_mul (units : Nat) (power : Int) :
    |(below units power).value - rational units| * (one * (below units power).den) =
      (units * (below units power).den - (below units power).num : Nat) := by
  have hle := below_le units power
  rw [abs_of_nonpos (sub_nonpos.mpr hle), neg_mul, Decimal.value_sub_mul, neg_sub,
    Nat.cast_sub (Decimal.value_le_rational.mp hle)]

theorem abs_above_sub_mul (units : Nat) (power : Int) :
    |(above units power).value - rational units| * (one * (below units power).den) =
      ((above units power).num - units * (above units power).den : Nat) := by
  have hlt := lt_above units power
  have hle := Nat.le_of_not_le (mt Decimal.value_le_rational.mpr (not_le.mpr hlt))
  rw [abs_of_pos (sub_pos.mpr hlt), Nat.cast_sub hle, ← Decimal.value_sub_mul]
  rfl

theorem nearer_noFarther (units : Nat) (power : Int) :
    (nearer units power).NoFarther (below units power) (rational units) ∧
      (nearer units power).NoFarther (above units power) (rational units) := by
  have hpos := (below units power).one_mul_den_pos
  have hlt : |(above units power).value - rational units| <
      |(below units power).value - rational units| ↔
      (above units power).num - units * (above units power).den <
        units * (below units power).den - (below units power).num := by
    rw [← mul_lt_mul_iff_of_pos_right hpos, abs_above_sub_mul, abs_below_sub_mul, Nat.cast_lt]
  have heq : |(above units power).value - rational units| =
      |(below units power).value - rational units| ↔
      (above units power).num - units * (above units power).den =
        units * (below units power).den - (below units power).num := by
    rw [← mul_left_inj' hpos.ne', abs_above_sub_mul, abs_below_sub_mul, Nat.cast_inj]
  unfold nearer
  dsimp only
  split
  · next h =>
    rw [← hlt, ← heq] at h
    refine ⟨⟨h.elim le_of_lt fun h => h.1.le, fun htie => ?_⟩, .of_value_eq rfl⟩
    obtain ⟨-, hodd⟩ := h.resolve_left htie.not_lt
    right
    change ((below units power).digits + 1) % 2 = 0
    omega
  · next h =>
    rw [← hlt, ← heq, not_or, not_lt] at h
    refine ⟨.of_value_eq rfl, ⟨h.1, fun htie => ?_⟩⟩
    have heven : ¬(below units power).digits % 2 = 1 := fun hodd => h.2 ⟨htie.symm, hodd⟩
    right
    omega

theorem nearer_cases (units : Nat) (power : Int) :
    nearer units power = below units power ∨ nearer units power = above units power := by
  unfold nearer
  dsimp only
  split
  · exact .inr rfl
  · exact .inl rfl

end Neighbours

section DecimalAt

variable {units : Nat} {power : Int} {d e : Decimal}

/-- What is found is a neighbour that rounds to the magnitude, and if both do, the nearer one. -/
theorem decimalAt?_neighbours (h : Representable units) (hd : decimalAt? units power = some d) :
    (d = below units power ∨ d = above units power) ∧ rounded d.value = rational units ∧
      (rounded (below units power).value = rational units →
        d.NoFarther (below units power) (rational units)) ∧
      (rounded (above units power).value = rational units →
        d.NoFarther (above units power) (rational units)) := by
  simp only [← Decimal.contains_iff_rounded h]
  unfold decimalAt? at hd
  dsimp only at hd
  split at hd
  · next hlow hhigh =>
    obtain rfl := Option.some.inj hd
    obtain ⟨hnearLow, hnearHigh⟩ := nearer_noFarther units power
    refine ⟨nearer_cases units power, ?_, fun _ => hnearLow, fun _ => hnearHigh⟩
    rcases nearer_cases units power with heq | heq
    · exact heq ▸ hlow
    · exact heq ▸ hhigh
  · next hlow hhigh =>
    obtain rfl := Option.some.inj hd
    exact ⟨.inl rfl, hlow, fun _ => .of_value_eq rfl,
      fun h => absurd (hhigh.symm.trans h) Bool.false_ne_true⟩
  · next hlow hhigh =>
    obtain rfl := Option.some.inj hd
    exact ⟨.inr rfl, hhigh, fun h => absurd (hlow.symm.trans h) Bool.false_ne_true,
      fun _ => .of_value_eq rfl⟩
  · cases hd

/-- No other multiple that rounds to the magnitude is nearer than what is found. -/
theorem decimalAt?_noFarther (h : Representable units) (hd : decimalAt? units power = some d)
    (he : e.power = power) (hround : rounded e.value = rational units) :
    d.NoFarther e (rational units) := by
  obtain ⟨-, -, hlow, hhigh⟩ := decimalAt?_neighbours h hd
  obtain ⟨c, hc, hcround, hce⟩ := exists_neighbour h he hround
  rcases hc with rfl | rfl
  · exact (hlow hcround).trans_of_eq_or_lt hce
  · exact (hhigh hcround).trans_of_eq_or_lt hce

theorem decimalAt?_of_rounded (h : Representable units) (he : e.power = power)
    (hround : rounded e.value = rational units) : ∃ d, decimalAt? units power = some d := by
  obtain ⟨c, hc, hcround, -⟩ := exists_neighbour h he hround
  rw [← Decimal.contains_iff_rounded h] at hcround
  unfold decimalAt?
  dsimp only
  rcases hc with rfl | rfl <;> rw [hcround]
  · cases (Interval.ofUnits units).contains (above units power).num (above units power).den
    · exact ⟨_, rfl⟩
    · exact ⟨_, rfl⟩
  · cases (Interval.ofUnits units).contains (below units power).num (below units power).den
    · exact ⟨_, rfl⟩
    · exact ⟨_, rfl⟩

end DecimalAt

/-! ## How a magnitude begins -/

section Leading

variable {units : Nat} {d e : Decimal} {n : Nat}

/-- A power of ten beside a magnitude, both as whole numbers. -/
theorem ten_zpow_le_rational (j k : Nat) :
    (10 : ℚ) ^ (j - k : Int) ≤ rational units ↔ 10 ^ j * one ≤ units * 10 ^ k := by
  have hunits := rational_mul_one units
  rw [Int.cast_natCast] at hunits
  have hpower : (10 : ℚ) ^ (j - k : Int) * 10 ^ k = 10 ^ j := by
    rw [← zpow_natCast, ← zpow_natCast, ← ten_zpow_add, sub_add_cancel]
  have hpos : (0 : ℚ) < one * 10 ^ k := mul_pos cast_one_pos (by positivity)
  rw [← mul_le_mul_iff_of_pos_right hpos, ← mul_assoc (rational units), hunits,
    mul_comm (one : ℚ), ← mul_assoc, hpower, ← @Nat.cast_le ℚ]
  push_cast
  rfl

/-- Scaled so that it is at least one, a magnitude is as large as its digits say. -/
theorem scaled_spec {k length : Nat} (hk : one ≤ Nat.pow 10 k) (hpos : 0 < units)
    (hlength : (digits (units * Nat.pow 10 k / one)).length = length) :
    (10 : ℚ) ^ (length - 1 - k : Int) ≤ rational units ∧
      rational units < 10 ^ (length - k : Int) := by
  have hscaled : 0 < units * Nat.pow 10 k / one :=
    Nat.div_pos (Nat.le_trans hk (Nat.le_mul_of_pos_left _ hpos)) one_units_pos
  have hdigits := length_digits_pos (units * Nat.pow 10 k / one)
  obtain ⟨hlow, hhigh⟩ := length_digits_spec hscaled
  rw [Nat.le_div_iff_mul_le one_units_pos, Nat.pow_eq, ← ten_zpow_le_rational, ← Nat.pow_eq,
    hlength] at hlow
  rw [Nat.div_lt_iff_lt_mul one_units_pos, ← Nat.not_le, Nat.pow_eq, ← ten_zpow_le_rational,
    ← Nat.pow_eq, hlength, not_le] at hhigh
  rw [hlength] at hdigits
  rw [Nat.cast_sub hdigits] at hlow
  exact ⟨hlow, hhigh⟩

/-- A magnitude begins with its leading power of ten. -/
theorem leadingPower_spec (hpos : 0 < units) : 10 ^ leadingPower units ≤ rational units ∧
    rational units < 10 ^ (leadingPower units + 1) := by
  have hone : one ≤ Nat.pow 10 400 := by decide +kernel
  obtain ⟨hlow, hhigh⟩ := scaled_spec hone hpos rfl
  have hfirst : leadingPower units =
      (digits (units * Nat.pow 10 400 / one)).length - 1 - (400 : Nat) := by
    rw [leadingPower]
    omega
  rw [← hfirst] at hlow
  have hnext : leadingPower units + 1 =
      (digits (units * Nat.pow 10 400 / one)).length - (400 : Nat) := by
    rw [leadingPower]
    omega
  rw [← hnext] at hhigh
  exact ⟨hlow, hhigh⟩

/-- A neighbour of a magnitude has few digits, but it may be the power of ten after them. -/
theorem digits_le_of_neighbour (hpos : 0 < units)
    (hd : d = below units (leadingPower units - n) ∨ d = above units (leadingPower units - n)) :
    d.digits ≤ 10 ^ (n + 1) := by
  have hlow := below_le units (leadingPower units - n)
  have hhigh := (leadingPower_spec hpos).2
  have hlast : (below units (leadingPower units - n)).value <
      (⟨10 ^ (n + 1), leadingPower units - n⟩ : Decimal).value := by
    refine lt_of_le_of_lt hlow (lt_of_lt_of_eq hhigh ?_)
    rw [← Nat.one_mul (10 ^ (n + 1)), value_mul_pow, Decimal.value, Nat.cast_one, one_mul]
    congr 1
    push_cast
    ring
  have hpower : (⟨10 ^ (n + 1), leadingPower units - n⟩ : Decimal).power =
      (below units (leadingPower units - n)).power := rfl
  rw [← not_le, value_le_value_iff hpower, Nat.not_le] at hlast
  rcases hd with rfl | rfl
  · exact hlast.le
  · exact hlast

/-- What rounds to a magnitude has a digit other than zero. -/
theorem digits_pos_of_rounded (hpos : 0 < units) (he : rounded e.value = rational units) :
    0 < e.digits := by
  rw [← Decimal.value_pos_iff]
  refine e.value_nonneg.lt_of_ne fun hzero => ?_
  have hround := rounded_of_representable representable_zero
  rw [Nat.cast_zero, rational_zero, hzero, he, ← hzero, ← rational_zero, rational_inj] at hround
  omega

theorem length_significant_le_of_neighbour (hpos : 0 < units)
    (hd : d = below units (leadingPower units - n) ∨ d = above units (leadingPower units - n))
    (hround : rounded d.value = rational units) : d.significant.length ≤ n + 1 := by
  rw [Decimal.length_significant_le_iff (digits_pos_of_rounded hpos hround)]
  rcases (digits_le_of_neighbour hpos hd).lt_or_eq with hlt | heq
  · exact ⟨d, rfl, hlt⟩
  · refine ⟨⟨1, d.power + (n + 1 : Nat)⟩, ?_, Nat.one_lt_pow (Nat.succ_ne_zero n) (by decide)⟩
    rw [← value_mul_pow, Nat.one_mul, ← heq]

/-- What has few digits and rounds to a magnitude is a multiple of the last power of ten, or else
the leading power, which is one, is nearer. -/
theorem exists_multiple (h : Representable units) (hpos : 0 < units)
    (he : rounded e.value = rational units) (hlength : e.significant.length ≤ n + 1) :
    ∃ c : Decimal, c.power = leadingPower units - n ∧ rounded c.value = rational units ∧
      (c.value = e.value ∨ |c.value - rational units| < |e.value - rational units|) := by
  obtain ⟨hfirst, -⟩ := leadingPower_spec hpos
  rw [Decimal.length_significant_le_iff (digits_pos_of_rounded hpos he)] at hlength
  obtain ⟨e, hvalue, hdigits⟩ := hlength
  rw [← hvalue] at he ⊢
  rcases le_or_gt (leadingPower units - n) e.power with hle | hgt
  · obtain ⟨j, hj⟩ := Int.le.dest hle
    have hvalue : (⟨e.digits * 10 ^ j, leadingPower units - n⟩ : Decimal).value = e.value := by
      rw [value_mul_pow, hj]
    exact ⟨⟨e.digits * 10 ^ j, _⟩, rfl, hvalue ▸ he, .inl hvalue⟩
  · have hvalue : (⟨10 ^ n, leadingPower units - n⟩ : Decimal).value =
        10 ^ leadingPower units := by
      rw [← Nat.one_mul (10 ^ n), value_mul_pow, Decimal.value, Nat.cast_one, one_mul,
        sub_add_cancel]
    have hbelow : e.value < 10 ^ leadingPower units := by
      calc e.value < ((10 ^ (n + 1) : Nat) : ℚ) * 10 ^ e.power :=
            mul_lt_mul_of_pos_right (Nat.cast_lt.mpr hdigits) (ten_zpow_pos _)
        _ = 10 ^ ((n + 1 : Nat) + e.power : Int) := by
            rw [ten_zpow_add, zpow_natCast, Nat.cast_pow, Nat.cast_ofNat]
        _ ≤ 10 ^ leadingPower units := zpow_le_zpow_right₀ (by norm_num) (by omega)
    refine ⟨⟨10 ^ n, leadingPower units - n⟩, rfl, ?_⟩
    rw [hvalue]
    exact rounded_of_le h e.value_nonneg he hbelow.le hfirst

/-- Seventeen digits are enough: the nearer neighbour is so close that it rounds to the
magnitude. -/
theorem exists_seventeen (h : Representable units) (hpos : 0 < units) :
    ∃ e : Decimal, e.power = leadingPower units - (16 : Nat) ∧
      rounded e.value = rational units := by
  obtain ⟨hfirst, -⟩ := leadingPower_spec hpos
  have hsteps : 10 ^ (leadingPower units - (16 : Nat)) * 10 ^ 16 ≤ rational units := by
    rwa [← zpow_natCast, ← ten_zpow_add, sub_add_cancel]
  generalize leadingPower units - (16 : Nat) = power at hsteps
  have hlow := below_le units power
  have hhigh := lt_above units power
  have hgap := value_above units power
  rcases le_total (rational units - (below units power).value)
    ((above units power).value - rational units) with hle | hle
  · refine ⟨below units power, rfl, rounded_of_close (Decimal.value_nonneg _) h ?_⟩
    rw [abs_of_nonpos (by linarith)]
    linarith
  · refine ⟨above units power, rfl, rounded_of_close (Decimal.value_nonneg _) h ?_⟩
    rw [abs_of_pos (by linarith)]
    linarith

end Leading

/-! ## The search -/

section Search

variable {units : Nat} {d e : Decimal}

/-- The search stops at the first power of ten at which a decimal is found. -/
theorem shortest?_eq_some (h : shortest? units = some d) :
    ∃ n : Nat, n < 17 ∧ decimalAt? units (leadingPower units - n) = some d ∧
      ∀ m < n, decimalAt? units (leadingPower units - m) = none := by
  obtain ⟨before, n, after, hrange, hd, hnone⟩ := List.findSome?_eq_some_iff.mp h
  rw [List.range_eq_range', List.range'_eq_append_iff] at hrange
  obtain ⟨k, hk, rfl, hafter⟩ := hrange
  rw [eq_comm, List.range'_eq_cons_iff] at hafter
  obtain ⟨rfl, hlt, -⟩ := hafter
  rw [Nat.zero_add, Nat.mul_one] at hd
  refine ⟨k, Nat.lt_of_sub_pos hlt, hd, fun m hm => hnone m ?_⟩
  rw [List.mem_range'_1]
  omega

theorem exists_shortest?_eq_some (h : Representable units) (hpos : 0 < units) :
    ∃ d, shortest? units = some d := by
  obtain ⟨e, he, hround⟩ := exists_seventeen h hpos
  obtain ⟨d, hd⟩ := decimalAt?_of_rounded h he hround
  rw [← Option.isSome_iff_exists, shortest?, List.findSome?_isSome_iff]
  exact ⟨16, List.mem_range.mpr (by decide), hd ▸ rfl⟩

/-- The shortest decimal rounds to the magnitude. No other one that does has fewer digits, and none
with as many is nearer. -/
theorem exists_shortest? (h : Representable units) (hpos : 0 < units) :
    ∃ d, shortest? units = some d ∧ rounded d.value = rational units ∧
      ∀ e : Decimal, rounded e.value = rational units →
        d.significant.length ≤ e.significant.length ∧
          (e.significant.length ≤ d.significant.length → d.NoFarther e (rational units)) := by
  obtain ⟨d, hd⟩ := exists_shortest?_eq_some h hpos
  obtain ⟨n, -, hfound, hnone⟩ := shortest?_eq_some hd
  obtain ⟨hneighbour, hround, -⟩ := decimalAt?_neighbours h hfound
  have hlength := length_significant_le_of_neighbour hpos hneighbour hround
  refine ⟨d, hd, hround, fun e he => ⟨?_, fun hle => ?_⟩⟩
  · -- With fewer digits the search would have stopped earlier.
    refine Nat.le_of_not_lt fun hlt => ?_
    have hpositive := Decimal.length_significant_pos (digits_pos_of_rounded hpos he)
    obtain ⟨m, hm⟩ := Nat.exists_eq_add_one_of_ne_zero hpositive.ne'
    obtain ⟨c, hpower, hcround, -⟩ := exists_multiple h hpos he hm.le
    obtain ⟨other, hother⟩ := decimalAt?_of_rounded h hpower hcround
    have hnothing := hnone m (by omega)
    rw [hother] at hnothing
    cases hnothing
  · obtain ⟨c, hpower, hcround, hc⟩ := exists_multiple h hpos he (hle.trans hlength)
    exact (decimalAt?_noFarther h hfound hpower hcround).trans_of_eq_or_lt hc

end Search

end PlayerText.Number
