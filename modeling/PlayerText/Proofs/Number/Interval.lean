import PlayerText.Number.Shortest
import PlayerText.Proofs.Number.Nearest

/-!
# What rounds to a magnitude

The quotients that round to a point of the grid lie around it, from halfway to the point below up to
halfway to the one above. Of two neighbours one has an even number of steps, and the place halfway
between them belongs to that one.

* `Normalized`: a number of steps, as large as 53 bits leave them.
* `Normalized.ofUnits_eq`: the interval of a magnitude by its steps.
* `Normalized.high_eq`, `Normalized.low_succ`, `Normalized.closed_succ_iff`: two neighbours and the
  place between them.
* `contains_iff`: what lies in the interval of a point rounds to it, and nothing else does.
* `nearest_congr`: equal quotients are rounded alike.
-/

namespace PlayerText.Number

/-! ## Steps -/

/-- A number of steps of `2 ^ e` units that 53 bits have room for; steps of more than one unit are
no larger than that asks for. -/
structure Normalized (m e : Nat) : Prop where
  lt : m < 2 ^ 53
  large : e = 0 ∨ 2 ^ 52 ≤ m

section Steps

variable {m e k n num den : Nat}

theorem log2_mul_two_pow (hlow : 2 ^ 52 ≤ m) (hhigh : m < 2 ^ 53) :
    (m * 2 ^ e).log2 = 52 + e := by
  have hne : m * 2 ^ e ≠ 0 := Nat.mul_ne_zero (by omega) (Nat.two_pow_pos e).ne'
  rw [Nat.log2_eq_iff hne, pow_add, Nat.add_right_comm, pow_add]
  exact ⟨Nat.mul_le_mul_right _ hlow, Nat.mul_lt_mul_of_pos_right hhigh (Nat.two_pow_pos e)⟩

/-- The size of the steps is found from the number of bits. -/
theorem Normalized.log2_sub (h : Normalized m e) : (m * 2 ^ e).log2 - 52 = e := by
  rcases Nat.lt_or_ge m (2 ^ 52) with hsmall | hlarge
  · obtain rfl : e = 0 := by have := h.large; omega
    rw [Nat.pow_zero, Nat.mul_one]
    rcases Nat.eq_zero_or_pos m with rfl | hpos
    · rfl
    · have hlog := (Nat.log2_lt hpos.ne').mpr hsmall
      omega
  · rw [log2_mul_two_pow hlarge h.lt]
    omega

theorem Representable.exists_normalized (h : Representable n) :
    ∃ m e, Normalized m e ∧ n = m * 2 ^ e := by
  rcases Nat.lt_or_ge n (2 ^ 53) with hsmall | hlarge
  · exact ⟨n, 0, ⟨hsmall, .inl rfl⟩, (Nat.mul_one n).symm⟩
  · have hne : n ≠ 0 := by omega
    have hlog : 53 ≤ n.log2 := (Nat.le_log2 hne).mpr hlarge
    have hlow : 2 ^ 52 * 2 ^ (n.log2 - 52) ≤ n := by
      rw [← pow_add, Nat.add_sub_cancel' (by omega)]
      exact Nat.log2_self_le hne
    have hhigh : n < 2 ^ 53 * 2 ^ (n.log2 - 52) := by
      rw [← pow_add, show 53 + (n.log2 - 52) = n.log2 + 1 by omega]
      exact Nat.lt_log2_self
    generalize n.log2 - 52 = e at hlow hhigh
    obtain ⟨m, rfl⟩ := h.dvd hlow
    rw [Nat.mul_comm (2 ^ e) m] at hlow hhigh ⊢
    refine ⟨m, e, ⟨?_, .inr ?_⟩, rfl⟩
    · exact Nat.lt_of_mul_lt_mul_right hhigh
    · exact Nat.le_of_mul_le_mul_right hlow (Nat.two_pow_pos e)

theorem Normalized.representable (h : Normalized m e) : Representable (m * 2 ^ e) :=
  ⟨m, e, h.lt, rfl⟩

theorem Normalized.representable_succ (h : Normalized m e) : Representable ((m + 1) * 2 ^ e) :=
  representable_of_dvd (Nat.dvd_mul_left _ _) (Nat.mul_le_mul_right _ h.lt)

/-- Nothing of the grid is between two steps. -/
theorem Normalized.le_or_le (h : Normalized m e) (hk : Representable k) :
    k ≤ m * 2 ^ e ∨ (m + 1) * 2 ^ e ≤ k := by
  rcases h.large with rfl | hlarge
  · rw [Nat.pow_zero, Nat.mul_one, Nat.mul_one]
    omega
  · refine (Nat.lt_or_ge (m * 2 ^ e) k).symm.imp_right fun hlt => ?_
    have hle : 2 ^ 52 * 2 ^ e ≤ k := Nat.le_trans (Nat.mul_le_mul_right _ hlarge) hlt.le
    obtain ⟨j, rfl⟩ := hk.dvd hle
    rw [Nat.mul_comm (2 ^ e) j] at hlt ⊢
    exact Nat.mul_le_mul_right _ (Nat.lt_of_mul_lt_mul_right hlt)

/-- The step after the last one of a size is the first of the next size. -/
theorem Normalized.succ_cases (h : Normalized m e) :
    Normalized (m + 1) e ∨ m + 1 = 2 ^ 53 ∧ (m + 1) * 2 ^ e = 2 ^ 52 * 2 ^ (e + 1) := by
  have hlt := h.lt
  rcases Nat.lt_or_eq_of_le hlt with hsucc | hlast
  · exact .inl ⟨hsucc, h.large.imp_right fun hlarge => by omega⟩
  · obtain rfl : m = 2 ^ 53 - 1 := by omega
    exact .inr ⟨rfl, by ring⟩

/-- Every magnitude but zero comes after another one. -/
theorem Representable.exists_pred (h : Representable n) (hpos : 0 < n) :
    ∃ m e, Normalized m e ∧ n = (m + 1) * 2 ^ e := by
  obtain ⟨m, e, hnorm, rfl⟩ := h.exists_normalized
  have hm : 0 < m := Nat.pos_of_mul_pos_right hpos
  have hlt := hnorm.lt
  by_cases hfirst : m = 2 ^ 52 ∧ 0 < e
  · obtain ⟨rfl, he⟩ := hfirst
    obtain ⟨e, rfl⟩ := Nat.exists_eq_add_one_of_ne_zero he.ne'
    exact ⟨2 ^ 53 - 1, e, ⟨by decide, .inr (by decide)⟩, by ring⟩
  · obtain ⟨m, rfl⟩ := Nat.exists_eq_add_one_of_ne_zero hm.ne'
    refine ⟨m, e, ⟨by omega, ?_⟩, rfl⟩
    have hlarge := hnorm.large
    omega

end Steps

/-! ## The interval of a magnitude -/

section Ends

variable {m e : Nat}

theorem Normalized.ofUnits_eq (h : Normalized m e) :
    Interval.ofUnits (m * 2 ^ e) =
      ⟨4 * (m * 2 ^ e) - (if m = 2 ^ 52 ∧ 0 < e then 2 ^ e else 2 * 2 ^ e),
        4 * (m * 2 ^ e) + 2 * 2 ^ e, m % 2 = 0⟩ := by
  simp only [Interval.ofUnits, h.log2_sub, Nat.pow_eq, Nat.mul_div_cancel m (Nat.two_pow_pos e)]

/-- The interval of a magnitude ends halfway to the next. -/
theorem Normalized.high_eq (h : Normalized m e) :
    (Interval.ofUnits (m * 2 ^ e)).high = 2 * (m * 2 ^ e + (m + 1) * 2 ^ e) := by
  rw [h.ofUnits_eq]
  ring

/-- There the interval of the next one begins. -/
theorem Normalized.low_succ (h : Normalized m e) :
    (Interval.ofUnits ((m + 1) * 2 ^ e)).low = 2 * (m * 2 ^ e + (m + 1) * 2 ^ e) := by
  rcases h.succ_cases with hsucc | ⟨hlast, hnext⟩
  · have hfirst : ¬(m + 1 = 2 ^ 52 ∧ 0 < e) := by
      have hlarge := h.large
      omega
    rw [hsucc.ofUnits_eq, if_neg hfirst, Nat.add_mul, Nat.one_mul]
    dsimp only
    omega
  · have hfirst : Normalized (2 ^ 52) (e + 1) := ⟨by decide, .inr (Nat.le_refl _)⟩
    obtain rfl : m = 2 ^ 53 - 1 := by omega
    rw [hnext, hfirst.ofUnits_eq, if_pos ⟨rfl, Nat.succ_pos e⟩, pow_succ 2 e]
    dsimp only
    omega

theorem Normalized.closed_iff (h : Normalized m e) :
    (Interval.ofUnits (m * 2 ^ e)).closed = true ↔ m % 2 = 0 := by
  rw [h.ofUnits_eq, decide_eq_true_iff]

/-- Of two neighbours one takes the place between them. -/
theorem Normalized.closed_succ_iff (h : Normalized m e) :
    (Interval.ofUnits ((m + 1) * 2 ^ e)).closed = true ↔
      ¬(Interval.ofUnits (m * 2 ^ e)).closed = true := by
  rw [h.closed_iff]
  rcases h.succ_cases with hsucc | ⟨hlast, hnext⟩
  · rw [hsucc.closed_iff]
    omega
  · have hfirst : Normalized (2 ^ 52) (e + 1) := ⟨by decide, .inr (Nat.le_refl _)⟩
    rw [hnext, hfirst.closed_iff]
    omega

end Ends

/-! ## What lies in it -/

section Contains

variable {m e k num den units : Nat}

/-- A tie goes to the one that takes it. -/
theorem closed_nearest_of_tie (hden : 0 < den) (hk : Representable k) (hne : k ≠ nearest num den)
    (hmid : 2 * num = (k + nearest num den) * den) :
    (Interval.ofUnits (nearest num den)).closed = true := by
  obtain ⟨e, m, he, hle, hsteps, htie⟩ := exists_steps_nearest num hden
  have heven := htie k hk hne hmid
  rw [he]
  rcases Nat.lt_or_eq_of_le hle with hlt | rfl
  · have hnorm : Normalized m e := ⟨hlt, hsteps⟩
    exact hnorm.closed_iff.mpr heven
  · have hlast : Normalized (2 ^ 53 - 1) e := ⟨by decide, .inr (by decide)⟩
    exact hlast.closed_succ_iff.mpr (by rw [hlast.closed_iff]; decide)

/-- A quotient is rounded to a magnitude or further down if it lies below the place halfway to the
next, or there if the magnitude takes it. -/
theorem Normalized.nearest_le_iff (h : Normalized m e) (hden : 0 < den) :
    nearest num den ≤ m * 2 ^ e ↔
      if (Interval.ofUnits (m * 2 ^ e)).closed then
        2 * num ≤ (m * 2 ^ e + (m + 1) * 2 ^ e) * den
      else 2 * num < (m * 2 ^ e + (m + 1) * 2 ^ e) * den := by
  constructor
  · intro hle
    have hlt : nearest num den < (m + 1) * 2 ^ e :=
      Nat.lt_of_le_of_lt hle (Nat.mul_lt_mul_of_pos_right (Nat.lt_succ_self m) (Nat.two_pow_pos e))
    have hmid := le_mid_of_nearest_lt hden h.representable_succ hlt
    have hbelow : 2 * num ≤ (m * 2 ^ e + (m + 1) * 2 ^ e) * den :=
      Nat.le_trans hmid (Nat.mul_le_mul_right den (Nat.add_le_add_right hle _))
    split
    · exact hbelow
    · next hopen =>
      refine Nat.lt_of_le_of_ne hbelow fun htie => hopen ?_
      -- The place between the two is as near to the next one, so the tie went to this one.
      have hge : m * 2 ^ e + (m + 1) * 2 ^ e ≤ nearest num den + (m + 1) * 2 ^ e :=
        Nat.le_of_mul_le_mul_right (htie ▸ hmid) hden
      have heq : nearest num den = m * 2 ^ e := Nat.le_antisymm hle (Nat.le_of_add_le_add_right hge)
      rw [← heq] at htie ⊢
      exact closed_nearest_of_tie hden h.representable_succ hlt.ne' (by rw [htie, Nat.add_comm])
  · intro hbelow
    refine Nat.le_of_not_lt fun hlt => ?_
    have hnext := (h.le_or_le (representable_nearest num den)).resolve_left (Nat.not_le.mpr hlt)
    have hmid := mid_le_of_lt_nearest h.representable hlt
    have habove : (m * 2 ^ e + (m + 1) * 2 ^ e) * den ≤ 2 * num :=
      Nat.le_trans (Nat.mul_le_mul_right den (Nat.add_le_add_left hnext _)) hmid
    split at hbelow
    · next hclosed =>
      have htie : 2 * num = (m * 2 ^ e + (m + 1) * 2 ^ e) * den := Nat.le_antisymm hbelow habove
      have hle : m * 2 ^ e + nearest num den ≤ m * 2 ^ e + (m + 1) * 2 ^ e :=
        Nat.le_of_mul_le_mul_right (htie ▸ hmid) hden
      have heq : nearest num den = (m + 1) * 2 ^ e :=
        Nat.le_antisymm (Nat.le_of_add_le_add_left hle) hnext
      have hother := closed_nearest_of_tie hden h.representable hlt.ne (by rw [htie, heq])
      rw [heq, h.closed_succ_iff] at hother
      exact hother hclosed
    · exact absurd habove (Nat.not_le.mpr hbelow)

/-- It is rounded to the next one or further up in all other cases. -/
theorem Normalized.le_nearest_iff (h : Normalized m e) (hden : 0 < den) :
    (m + 1) * 2 ^ e ≤ nearest num den ↔
      if (Interval.ofUnits ((m + 1) * 2 ^ e)).closed then
        (m * 2 ^ e + (m + 1) * 2 ^ e) * den ≤ 2 * num
      else (m * 2 ^ e + (m + 1) * 2 ^ e) * den < 2 * num := by
  have hlt : m * 2 ^ e < (m + 1) * 2 ^ e :=
    Nat.mul_lt_mul_of_pos_right (Nat.lt_succ_self m) (Nat.two_pow_pos e)
  have hsplit : (m + 1) * 2 ^ e ≤ nearest num den ↔ ¬nearest num den ≤ m * 2 ^ e := by
    have hor := h.le_or_le (representable_nearest num den)
    omega
  rw [hsplit, h.nearest_le_iff hden]
  by_cases hclosed : (Interval.ofUnits (m * 2 ^ e)).closed = true
  · have hnext := mt h.closed_succ_iff.mp (not_not_intro hclosed)
    rw [if_pos hclosed, if_neg hnext, Nat.not_le]
  · rw [if_neg hclosed, if_pos (h.closed_succ_iff.mpr hclosed), Nat.not_lt]

/-- What lies in the interval of a magnitude rounds to it, and nothing else does. -/
theorem contains_iff (h : Representable units) (hden : 0 < den) :
    (Interval.ofUnits units).contains num den = true ↔ nearest num den = units := by
  have hhigh : nearest num den ≤ units ↔ if (Interval.ofUnits units).closed then
      4 * num ≤ (Interval.ofUnits units).high * den
      else 4 * num < (Interval.ofUnits units).high * den := by
    obtain ⟨m, e, hnorm, rfl⟩ := h.exists_normalized
    rw [hnorm.nearest_le_iff hden, hnorm.high_eq, Nat.mul_assoc]
    split <;> omega
  have hlow : units ≤ nearest num den ↔ if (Interval.ofUnits units).closed then
      (Interval.ofUnits units).low * den ≤ 4 * num
      else (Interval.ofUnits units).low * den < 4 * num := by
    rcases Nat.eq_zero_or_pos units with rfl | hpos
    · have hzero : (Interval.ofUnits 0).low = 0 ∧ (Interval.ofUnits 0).closed = true := by decide
      simp [hzero]
    · obtain ⟨m, e, hnorm, rfl⟩ := h.exists_pred hpos
      rw [hnorm.le_nearest_iff hden, hnorm.low_succ, Nat.mul_assoc]
      split <;> omega
  rw [Nat.eq_iff_le_and_ge, hhigh, hlow, Interval.contains]
  split <;> rw [decide_eq_true_iff, and_comm]

theorem Interval.contains_mul_right {interval : Interval} (hk : 0 < k) :
    interval.contains (num * k) (den * k) = interval.contains num den := by
  simp only [contains, ← Nat.mul_assoc, Nat.mul_le_mul_right_iff hk, Nat.mul_lt_mul_right hk]

/-- Equal quotients are rounded alike. -/
theorem nearest_congr {num' den' : Nat} (hden : 0 < den) (hden' : 0 < den')
    (h : num * den' = num' * den) : nearest num den = nearest num' den' := by
  have hunits := representable_nearest num' den'
  have hcontains := (contains_iff hunits hden').mpr rfl
  rw [← Interval.contains_mul_right hden, ← h, Nat.mul_comm den' den,
    Interval.contains_mul_right hden'] at hcontains
  exact (contains_iff hunits hden).mp hcontains

end Contains

end PlayerText.Number
