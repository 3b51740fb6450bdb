import Mathlib.Data.Prod.Lex
import PlayerText.Proofs.Playback.Rounding

/-!
# Times in order

A later time is never shown as an earlier one. Each step from the seconds to the texts keeps the
order: times that are not positive count as zero, rounding keeps the order, words do not wrap but
stay at the largest, and the parts of a larger total are not smaller, larger parts first.

Products and sums have no upper limit here. In binary64 arithmetic they become infinite, and an
infinite total is the largest word; that makes no difference.

* `limitedMillis`, `roundedMillis_eq_limited`: the total with infinities.
* `clampSeconds_mono`, `saturate_mono`, `roundedMillis_mono`: the steps up to the total.
* `lexParts`, `lexParts_mono`: the parts of a time in lexicographic order.
* `ofSeconds_mono`: the total, the parts and the numbers that are shown.
-/

namespace PlayerText.PlaybackTime

open Number

/-! ## Infinities -/

/-- A magnitude below the first that is infinite. -/
def finite? (n : Nat) : Option Nat := if n < overflow then some n else none

/-- A time in milliseconds, where a product or a sum that is too large is infinite, and infinity is
converted to the largest word. -/
def limitedMillis (units : Nat) : UInt64 :=
  let sum? := (finite? (nearest (1000 * units) 1)).bind fun product =>
    finite? (nearest (product + one / 2) 1)
  sum?.elim (UInt64.ofNat (UInt64.size - 1)) fun sum => saturate (sum / one)

/-- What would be infinite has more than 64 bits before its point. -/
theorem saturate_of_overflow {n : Nat} (h : overflow ≤ n) :
    saturate (n / one) = UInt64.ofNat (UInt64.size - 1) := by
  unfold overflow at h
  have hlarge : Nat.pow 2 1024 ≤ n / one := (Nat.le_div_iff_mul_le one_units_pos).mpr h
  have hsize : ∀ bits, 64 ≤ bits → UInt64.size - 1 ≤ Nat.pow 2 bits := fun bits hbits =>
    Nat.le_trans (Nat.sub_le _ _) (Nat.pow_le_pow_right Nat.two_pos hbits)
  rw [saturate, Nat.min_eq_right (Nat.le_trans (hsize 1024 (by decide)) hlarge)]

/-- Infinities make no difference. -/
theorem roundedMillis_eq_limited (units : Nat) : roundedMillis units = limitedMillis units := by
  have hproduct := nearest_of_representable (representable_nearest (1000 * units) 1)
  unfold roundedMillis limitedMillis
  generalize nearest (1000 * units) 1 = product at hproduct ⊢
  dsimp only
  rcases Nat.lt_or_ge product overflow with hp | hp
  · rw [finite?, if_pos hp, Option.bind_some]
    rcases Nat.lt_or_ge (nearest (product + one / 2) 1) overflow with hs | hs
    · rw [finite?, if_pos hs, Option.elim_some]
    · rw [finite?, if_neg (Nat.not_lt.mpr hs), Option.elim_none, saturate_of_overflow hs]
  · -- The sum is at least the product.
    have hs : product ≤ nearest (product + one / 2) 1 := by
      calc product
          = nearest product 1 := hproduct.symm
        _ ≤ nearest (product + one / 2) 1 := nearest_mono (Nat.le_add_right product _)
    rw [finite?, if_neg (Nat.not_lt.mpr hp), Option.bind_none, Option.elim_none,
      saturate_of_overflow (Nat.le_trans hp hs)]

/-! ## The steps up to the total -/

section Steps

variable {m n : Nat} {x y : Binary64} {X Y : ℚ}

theorem clampSeconds_mono (hx : x.value? = some X) (hy : y.value? = some Y) (hle : X ≤ Y) :
    clampSeconds x ≤ clampSeconds y := by
  obtain ⟨m, hm, rfl⟩ := exists_units?_of_value? hx
  obtain ⟨n, hn, rfl⟩ := exists_units?_of_value? hy
  rw [clampSeconds_of_units? hm, clampSeconds_of_units? hn]
  exact Int.toNat_le_toNat (rational_le_rational.mp hle)

theorem saturate_mono (h : m ≤ n) : saturate m ≤ saturate n := by
  rw [UInt64.le_iff_toNat_le, toNat_saturate, toNat_saturate]
  omega

theorem roundedMillis_mono (h : m ≤ n) : roundedMillis m ≤ roundedMillis n := by
  have hproduct := nearest_mono (Nat.mul_le_mul_left 1000 h)
  have hsum := nearest_mono (Nat.add_le_add_right hproduct (one / 2))
  exact saturate_mono (Nat.div_le_div_right hsum)

end Steps

/-! ## The parts -/

/-- The parts of a time, compared from the hours on. -/
def lexParts (t : PlaybackTime) : UInt64 ×ₗ UInt64 ×ₗ UInt64 ×ₗ UInt64 :=
  toLex (t.hours, toLex (t.minutes, toLex (t.secs, t.millis)))

theorem lexParts_le_iff {s t : PlaybackTime} :
    s.lexParts ≤ t.lexParts ↔
      s.hours.toNat < t.hours.toNat ∨ s.hours.toNat = t.hours.toNat ∧
        (s.minutes.toNat < t.minutes.toNat ∨ s.minutes.toNat = t.minutes.toNat ∧
          (s.secs.toNat < t.secs.toNat ∨ s.secs.toNat = t.secs.toNat ∧
            s.millis.toNat ≤ t.millis.toNat)) := by
  simp only [lexParts, Prod.Lex.toLex_le_toLex, UInt64.lt_iff_toNat_lt, UInt64.le_iff_toNat_le,
    UInt64.toNat_inj]

/-- The first part that differs between two totals is smaller in the smaller total. -/
theorem lexParts_mono {x y : Binary64}
    (h : roundedMillis (clampSeconds x) ≤ roundedMillis (clampSeconds y)) :
    (ofSeconds x).lexParts ≤ (ofSeconds y).lexParts := by
  obtain ⟨hh, hm, hs, hms⟩ := toNat_parts x
  obtain ⟨hh', hm', hs', hms'⟩ := toNat_parts y
  rw [UInt64.le_iff_toNat_le] at h
  rw [lexParts_le_iff, hh, hm, hs, hms, hh', hm', hs', hms']
  omega

/-- The time that is shown never runs backwards: a later time has no smaller total, its parts come
no earlier in lexicographic order, and no fewer full seconds, minutes or hours are shown. -/
theorem ofSeconds_mono {x y : Binary64} {X Y : ℚ} (hx : x.value? = some X)
    (hy : y.value? = some Y) (hle : X ≤ Y) :
    let s := ofSeconds x
    let t := ofSeconds y
    s.totalMillis ≤ t.totalMillis ∧ s.lexParts ≤ t.lexParts ∧
      ∀ selector ∈ ['s', 'm', 'h'], ∃ m n : Nat, numbers? (s.select selector) = some [m] ∧
        numbers? (t.select selector) = some [n] ∧ m ≤ n := by
  intro s t
  have hunits := clampSeconds_mono hx hy hle
  have htotal := roundedMillis_mono hunits
  have hhours : s.hours.toNat ≤ t.hours.toNat := by
    rw [(toNat_parts x).1, (toNat_parts y).1]
    exact Nat.div_le_div_right (UInt64.le_iff_toNat_le.mp htotal)
  have hwhole : s.wholeSeconds.toNat ≤ t.wholeSeconds.toNat :=
    UInt64.le_iff_toNat_le.mp (saturate_mono (Nat.div_le_div_right hunits))
  refine ⟨?_, lexParts_mono htotal, ?_⟩
  · rw [totalMillis_ofSeconds, totalMillis_ofSeconds]
    exact htotal
  · simp only [List.forall_mem_cons, List.not_mem_nil, false_implies, implies_true, and_true]
    refine ⟨?seconds, ?minutes, ?hours⟩
    case seconds => exact ⟨_, _, numbers?_numeral _, numbers?_numeral _, hwhole⟩
    case minutes =>
      refine ⟨_, _, numbers?_numeral _, numbers?_numeral _, ?_⟩
      rw [UInt64.toNat_div, UInt64.toNat_div]
      exact Nat.div_le_div_right hwhole
    case hours => exact ⟨_, _, numbers?_numeral _, numbers?_numeral _, hhours⟩

/-- The smallest positive number and the largest one, which is too large for 64 bits. -/
theorem ofSeconds_mono_extremes :
    let x : Binary64 := ⟨1⟩
    let y : Binary64 := ⟨0x7fefffffffffffff⟩
    let s := ofSeconds x
    let t := ofSeconds y
    (x.value? = some (rational 1) ∧ y.value? = some (rational ((2 ^ 53 - 1) * 2 ^ 2045)) ∧
      s.totalMillis = 0 ∧ t.totalMillis = UInt64.ofNat (UInt64.size - 1)) ∧
      s.totalMillis ≤ t.totalMillis ∧ s.lexParts ≤ t.lexParts ∧
        ∀ selector ∈ ['s', 'm', 'h'], ∃ m n : Nat, numbers? (s.select selector) = some [m] ∧
          numbers? (t.select selector) = some [n] ∧ m ≤ n := by
  intro x y s t
  have hx : x.value? = some (rational 1) := by decide +kernel
  have hy : y.value? = some (rational ((2 ^ 53 - 1) * 2 ^ 2045)) := by decide +kernel
  have hle : rational 1 ≤ rational ((2 ^ 53 - 1) * 2 ^ 2045) := by decide +kernel
  exact ⟨⟨hx, hy, by decide +kernel, by decide +kernel⟩, ofSeconds_mono hx hy hle⟩

end PlayerText.PlaybackTime
