import PlayerText.Number.Numeral

/-!
# Playback times

A player reports times as binary64 seconds. Negative times, infinities and NaN count as zero. The
time is shown as hours, minutes, seconds and milliseconds of the total that is rounded to
milliseconds once; only the selectors for whole minutes and seconds and for the decimal fraction
look at the seconds themselves.

* `PlaybackTime.ofSeconds`: the parts of a time.
* `PlaybackTime.totalMillis`: the total back from its parts.
* `PlaybackTime.select`: the text of one selector.
* `PlaybackTime.stamp`: the text of a length in a playlist.
-/

namespace PlayerText

open Number

/-- A number as a 64-bit word, the largest word if it has more than 64 bits. -/
def saturate (n : Nat) : UInt64 := UInt64.ofNat (min n (UInt64.size - 1))

/-- Seconds in units of binary64, everything but finite positive numbers being zero. -/
def clampSeconds (seconds : Binary64) : Nat := (seconds.units?.getD 0).toNat

/-- A time in milliseconds: the rounded product with a thousand, then the rounded sum with one half,
without what is after the point. -/
def roundedMillis (units : Nat) : UInt64 :=
  let product := nearest (1000 * units) 1
  let sum := nearest (product + one / 2) 1
  saturate (sum / one)

/-- A playback time in its parts. -/
structure PlaybackTime where
  /-- The seconds themselves, in units of binary64. -/
  seconds : Nat
  /-- Full hours, without a limit. -/
  hours : UInt64
  /-- Minutes after the full hour. -/
  minutes : UInt64
  /-- Seconds after the full minute. -/
  secs : UInt64
  /-- Milliseconds after the full second. -/
  millis : UInt64
  deriving DecidableEq

namespace PlaybackTime

/-- The parts of a time. -/
def ofSeconds (seconds : Binary64) : PlaybackTime :=
  let units := clampSeconds seconds
  let total := roundedMillis units
  { seconds := units
    hours := total / 3600000
    minutes := total / 60000 % 60
    secs := total % 60000 / 1000
    millis := total % 1000 }

/-- The rounded total in milliseconds. -/
def totalMillis (t : PlaybackTime) : UInt64 :=
  ((t.hours * 60 + t.minutes) * 60 + t.secs) * 1000 + t.millis

/-- The full seconds of the time itself. -/
def wholeSeconds (t : PlaybackTime) : UInt64 := saturate (t.seconds / one)

/-- Hours, minutes and seconds, two digits each. -/
def clock (t : PlaybackTime) : String :=
  padded 2 t.hours.toNat ++ ":" ++ padded 2 t.minutes.toNat ++ ":" ++ padded 2 t.secs.toNat

/-- The text of one selector; a character that selects nothing stands for itself. -/
def select (t : PlaybackTime) : Char → String
  | 'p' => t.clock
  | 'P' => t.clock ++ "." ++ padded 3 t.millis.toNat
  | 'H' => padded 2 t.hours.toNat
  | 'M' => padded 2 t.minutes.toNat
  | 'S' => padded 2 t.secs.toNat
  | 'T' => padded 3 t.millis.toNat
  | 'h' => numeral t.hours.toNat
  | 'm' => numeral (t.wholeSeconds / 60).toNat
  | 's' => numeral t.wholeSeconds.toNat
  | 'f' => fixed 6 t.seconds
  | other => other.toString

/-- A length as a playlist shows it: hours, minutes, seconds and milliseconds, the hours without
zeros in front. -/
def stamp (t : PlaybackTime) : String :=
  numeral t.hours.toNat ++ ":" ++ padded 2 t.minutes.toNat ++ ":" ++ padded 2 t.secs.toNat ++ "." ++
    padded 3 t.millis.toNat

end PlaybackTime

end PlayerText
