import PlayerText.Playback.Time
import PlayerText.Proofs.Number.Reading

/-!
# The parts of a time

A total in milliseconds is taken apart into hours, minutes, seconds and milliseconds, and every
total of 64 bits can be put together again from them: nothing is lost, and no product or sum on the
way needs a 65th bit. The texts of a time show the same parts, and a reader of the full text gets
the total back.

* `parts`, `toNat_parts`: the parts as numbers.
* `partials`, `lt_size_of_mem_partials`: what is computed on the way from the parts to the total.
* `totalMillis_ofSeconds`: the total from the parts.
* `numbers?_clock`: the numbers in the full text.
* `ofSeconds_exact`: all of it for every bit pattern.
-/

namespace PlayerText.PlaybackTime

open Number

/-- The parts of a time, larger parts first. -/
def parts (t : PlaybackTime) : List Nat :=
  [t.hours.toNat, t.minutes.toNat, t.secs.toNat, t.millis.toNat]

/-- What is computed on the way to the total, if there are bits enough: a product and a sum for each
part after the hours. -/
def partials (t : PlaybackTime) : List Nat :=
  let minutes := t.hours.toNat * 60 + t.minutes.toNat
  let secs := minutes * 60 + t.secs.toNat
  [t.hours.toNat * 60, minutes, minutes * 60, secs, secs * 1000, secs * 1000 + t.millis.toNat]

section Parts

variable (seconds : Binary64)

/-- The parts of a time as numbers. -/
theorem toNat_parts :
    let t := ofSeconds seconds
    let total := (roundedMillis (clampSeconds seconds)).toNat
    t.hours.toNat = total / 3600000 ∧ t.minutes.toNat = total / 60000 % 60 ∧
      t.secs.toNat = total % 60000 / 1000 ∧ t.millis.toNat = total % 1000 := by
  simp only [ofSeconds, UInt64.toNat_div, UInt64.toNat_mod]
  exact ⟨rfl, rfl, rfl, rfl⟩

/-- The parts make up the total. -/
theorem total_eq_of_parts (total : Nat) :
    ((total / 3600000 * 60 + total / 60000 % 60) * 60 + total % 60000 / 1000) * 1000 +
      total % 1000 = total := by
  omega

/-- All parts but the hours are below their limits. -/
theorem parts_lt :
    (ofSeconds seconds).minutes < 60 ∧ (ofSeconds seconds).secs < 60 ∧
      (ofSeconds seconds).millis < 1000 := by
  obtain ⟨-, hminutes, hsecs, hmillis⟩ := toNat_parts seconds
  simp only [UInt64.lt_iff_toNat_lt, hminutes, hsecs, hmillis, UInt64.toNat_ofNat]
  omega

/-- No product and no sum on the way to the total has more than 64 bits. -/
theorem lt_size_of_mem_partials : ∀ n ∈ (ofSeconds seconds).partials, n < UInt64.size := by
  intro n hn
  obtain ⟨hhours, hminutes, hsecs, hmillis⟩ := toNat_parts seconds
  have hlt := UInt64.toNat_lt_size (roundedMillis (clampSeconds seconds))
  simp only [partials, hhours, hminutes, hsecs, hmillis, List.mem_cons, List.not_mem_nil,
    or_false] at hn
  generalize UInt64.size = size at hlt ⊢
  omega

/-- The total comes back from its parts. -/
theorem totalMillis_ofSeconds :
    (ofSeconds seconds).totalMillis = roundedMillis (clampSeconds seconds) := by
  obtain ⟨hhours, hminutes, hsecs, hmillis⟩ := toNat_parts seconds
  have hlt : (roundedMillis (clampSeconds seconds)).toNat < 2 ^ 64 := UInt64.toNat_lt _
  have htotal := total_eq_of_parts (roundedMillis (clampSeconds seconds)).toNat
  refine UInt64.toNat_inj.mp ?_
  simp only [totalMillis, UInt64.toNat_add, UInt64.toNat_mul, hhours, hminutes, hsecs, hmillis,
    UInt64.toNat_ofNat]
  omega

end Parts

/-- The numbers in the full text of a time. -/
theorem numbers?_clock (t : PlaybackTime) :
    numbers? (t.select 'P') = some t.parts := by
  have hcolon : ":".toList = [':'] := rfl
  have hpoint : ".".toList = ['.'] := rfl
  have htext : t.select 'P' = padded 2 t.hours.toNat ++ (":" ++ (padded 2 t.minutes.toNat ++ (":" ++
      (padded 2 t.secs.toNat ++ ("." ++ padded 3 t.millis.toNat))))) := by
    simp only [select, clock, String.append_assoc]
  rw [htext, numbers?_padded_append hcolon rfl, numbers?_padded_append hcolon rfl,
    numbers?_padded_append hpoint rfl, numbers?_padded]
  rfl

/-- Without its last four characters the full text is that of the full seconds. -/
theorem toList_select_p (seconds : Binary64) :
    ((ofSeconds seconds).select 'p').toList = ((ofSeconds seconds).select 'P').toList.take
      (((ofSeconds seconds).select 'P').length - 4) := by
  have hmillis : (ofSeconds seconds).millis.toNat < 10 ^ 3 :=
    UInt64.lt_iff_toNat_lt.mp (parts_lt seconds).2.2
  have hlast : ("." ++ padded 3 (ofSeconds seconds).millis.toNat).toList.length = 4 := by
    rw [String.toList_append, List.length_append, length_padded (by decide) hmillis]
    rfl
  have htext : ((ofSeconds seconds).select 'P').toList = ((ofSeconds seconds).select 'p').toList ++
      ("." ++ padded 3 (ofSeconds seconds).millis.toNat).toList := by
    rw [← String.toList_append, ← String.append_assoc]
    rfl
  rw [← String.length_toList, htext, List.length_append, hlast, Nat.add_sub_cancel,
    List.take_left']
  rfl

/-- Every time is taken apart without loss. Minutes, seconds and milliseconds are below their
limits, the total comes back from the parts, and no product or sum on the way exceeds 64 bits. The
full text is made of the texts of the parts, and so are the text without milliseconds and the text
of a length in a playlist; and the numbers in the full text make up the total. -/
theorem ofSeconds_exact (seconds : Binary64) :
    let t := ofSeconds seconds
    let total := roundedMillis (clampSeconds seconds)
    (t.minutes < 60 ∧ t.secs < 60 ∧ t.millis < 1000) ∧
    (t.totalMillis = total ∧ ∀ n ∈ t.partials, n < UInt64.size) ∧
    t.select 'P' =
      t.select 'H' ++ ":" ++ t.select 'M' ++ ":" ++ t.select 'S' ++ "." ++ t.select 'T' ∧
    (t.select 'p').toList = (t.select 'P').toList.take ((t.select 'P').length - 4) ∧
    t.stamp = t.select 'h' ++ ":" ++ (t.select 'M' ++ ":" ++ t.select 'S' ++ "." ++ t.select 'T') ∧
    ∃ h m s ms : Nat, numbers? (t.select 'P') = some [h, m, s, ms] ∧
      ((h * 60 + m) * 60 + s) * 1000 + ms = total.toNat := by
  intro t total
  obtain ⟨hhours, hminutes, hsecs, hmillis⟩ := toNat_parts seconds
  refine ⟨parts_lt seconds, ⟨totalMillis_ofSeconds seconds, lt_size_of_mem_partials seconds⟩, rfl,
    ?_, ?_, _, _, _, _, numbers?_clock t, ?_⟩
  · exact toList_select_p seconds
  · simp only [stamp, select, t, String.append_assoc]
  · rw [hhours, hminutes, hsecs, hmillis]
    exact total_eq_of_parts total.toNat

/-- The largest number is too large for 64 bits, and all of them are set in its total. -/
example : (ofSeconds ⟨0x7fefffffffffffff⟩).select 'P' = "5124095576030:25:51.615" := by
  decide +kernel

end PlayerText.PlaybackTime
