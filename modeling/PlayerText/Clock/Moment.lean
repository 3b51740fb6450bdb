/-!
# Moments of the wall clock

A moment is a local date and time of day with the zone that its clock shows. Dates are of the
Gregorian calendar, carried on before its introduction and beyond the year 9999.

* `Date`, `TimeOfDay`: the two halves, each with its limits.
* `Date.weekday`: the day of the week, Monday first.
* `TimeOfDay.hour12`, `TimeOfDay.isAfternoon`: the hour of a twelve-hour clock.
* `TimeOfDay.millis`: milliseconds, which a leap second does not take beyond 999.
* `Zone.text`: how a zone is written.
-/

namespace PlayerText.Clock

/-- Whether a year has a 29th of February. -/
def isLeapYear (year : Int) : Bool :=
  year % 4 == 0 && (year % 100 != 0 || year % 400 == 0)

/-- The days of a month, counted from one. -/
def daysInMonth (year : Int) (month : Nat) : Nat :=
  if month = 2 then if isLeapYear year then 29 else 28
  else if month ∈ [4, 6, 9, 11] then 30 else 31

/-- A day of the Gregorian calendar. -/
structure Date where
  year : Int
  month : Nat
  day : Nat
  month_range : 1 ≤ month ∧ month ≤ 12
  day_range : 1 ≤ day ∧ day ≤ daysInMonth year month
  deriving DecidableEq

/-- A time of day. A leap second has the second 59 and a billion nanoseconds or more. -/
structure TimeOfDay where
  hour : Nat
  minute : Nat
  second : Nat
  nanosecond : Nat
  hour_lt : hour < 24
  minute_lt : minute < 60
  second_lt : second < 60
  nanosecond_lt : nanosecond < 2000000000
  deriving DecidableEq

/-- The zone of a clock. -/
inductive Zone where
  /-- Coordinated universal time, by name. -/
  | utc
  /-- A number of seconds east of it. -/
  | offset (seconds : Int)
  deriving DecidableEq

/-- What a wall clock shows. -/
structure Moment where
  date : Date
  time : TimeOfDay
  zone : Zone
  deriving DecidableEq

namespace Date

/-- The date with these numbers, if there is one. -/
def ofNumbers? (year : Int) (month day : Nat) : Option Date :=
  if h : (1 ≤ month ∧ month ≤ 12) ∧ 1 ≤ day ∧ day ≤ daysInMonth year month then
    some ⟨year, month, day, h.1, h.2⟩
  else none

/-- The days before the first of March of a year since the first of March of the year 0. -/
def daysBeforeMarch (year : Int) : Int :=
  365 * year + year / 4 - year / 100 + year / 400

/-- The days since the first of March of the year 0. Counting years from March puts the leap day at
the end, and the months before a month then have `(153 * n + 2) / 5` days. -/
def dayNumber (d : Date) : Int :=
  let fromMarch := (d.month + 9) % 12
  let year := if d.month ≤ 2 then d.year - 1 else d.year
  daysBeforeMarch year + ((153 * fromMarch + 2) / 5 : Nat) + (d.day - 1 : Nat)

/-- The day of the week, from 0 for Monday to 6 for Sunday. The first of March of the year 0 was a
Wednesday. -/
def weekday (d : Date) : Nat := ((d.dayNumber + 2) % 7).toNat

end Date

namespace TimeOfDay

/-- The time of day with these numbers, if there is one. -/
def ofNumbers? (hour minute second nanosecond : Nat) : Option TimeOfDay :=
  if h : hour < 24 ∧ minute < 60 ∧ second < 60 ∧ nanosecond < 2000000000 then
    some ⟨hour, minute, second, nanosecond, h.1, h.2.1, h.2.2.1, h.2.2.2⟩
  else none

/-- The hour of a twelve-hour clock, where the hour 0 is written 12. -/
def hour12 (t : TimeOfDay) : Nat := if t.hour % 12 = 0 then 12 else t.hour % 12

/-- Whether it is noon or later. -/
def isAfternoon (t : TimeOfDay) : Bool := 12 ≤ t.hour

/-- Full milliseconds of the second, at most 999. -/
def millis (t : TimeOfDay) : Nat := min (t.nanosecond / 1000000) 999

end TimeOfDay

end PlayerText.Clock
