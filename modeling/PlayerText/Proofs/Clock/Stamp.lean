import PlayerText.Configuration.Basic
import PlayerText.Proofs.Clock.Separator
import PlayerText.Proofs.Inline.Token
import PlayerText.Proofs.Number.Padded

/-!
# Time stamps in order

A time stamp is a row of columns, the larger part of the moment before the smaller. Every column is
a number in a fixed width, and so time stamps are ordered as texts, by their code points, as the
moments are that they show. Years of more or fewer than four digits, or before the year 0, would take
another width or a sign.

* `Column`: a field of a fixed width with the number that it shows; `Column.year` to `Column.millis`.
* `row`, `readings`: a pattern of columns between separators, and the numbers in it.
* `exists_render_column`, `length_column`, `compare_column`: one column.
* `compare_row`: texts of a row are ordered as their numbers are.
* `compare_format_stamp`: so are the time stamps to the millisecond and to the second, which names a
  screenshot.
-/

namespace PlayerText.Clock

open Inline Number

namespace Moment

/-- The year is written with four digits and no sign. -/
def HasFourDigitYear (m : Moment) : Prop := 0 ≤ m.date.year ∧ m.date.year ≤ 9999

/-- The date and the time of day to the second, larger parts first. -/
def toSecond (m : Moment) : List Int :=
  [m.date.year, m.date.month, m.date.day, m.time.hour, m.time.minute, m.time.second]

/-- The date and the time of day to the millisecond, larger parts first. -/
def toMillis (m : Moment) : List Int := m.toSecond ++ [(m.time.millis : Int)]

end Moment

/-! ## Columns -/

/-- A field that shows a number with zeros in front, and has room for it in years of four digits. -/
structure Column where
  /-- The field. -/
  field : DateField
  /-- The number that it shows. -/
  number : Moment → Int
  shows : ∀ (m : Moment) (twelveHour : Bool), m.HasFourDigitYear →
    ∃ n : Nat, number m = n ∧ n < 10 ^ field.width ∧
      field.part.text m twelveHour field.width = padded field.width n

theorem daysInMonth_le (year : Int) (month : Nat) : daysInMonth year month ≤ 31 := by
  unfold daysInMonth
  split
  · split <;> decide
  · split <;> decide

namespace Column

/-- The year with four digits. -/
def year : Column where
  field := ⟨.year, 4, by decide⟩
  number m := m.date.year
  shows m _ h := by
    have habs : (m.date.year.natAbs : Int) = m.date.year := Int.natAbs_of_nonneg h.1
    have hlt : m.date.year.natAbs < 10000 := by
      have := h.2
      omega
    exact ⟨m.date.year.natAbs, habs.symm, hlt, if_neg (Int.not_lt.mpr h.1)⟩

/-- A column for a number that is never too large for the field. -/
def ofNat (field : DateField) (number : Moment → Nat)
    (shows : ∀ m twelveHour, field.part.text m twelveHour field.width =
      padded field.width (number m))
    (fits : ∀ m, number m < 10 ^ field.width) : Column where
  field := field
  number m := number m
  shows m twelveHour _ := ⟨number m, rfl, fits m, shows m twelveHour⟩

/-- The month with two digits. -/
def month : Column :=
  ofNat ⟨.month, 2, by decide⟩ (·.date.month) (fun _ _ => rfl) fun m =>
    Nat.lt_of_le_of_lt m.date.month_range.2 (by decide)

/-- The day of the month with two digits. -/
def day : Column :=
  ofNat ⟨.day, 2, by decide⟩ (·.date.day) (fun _ _ => rfl) fun m =>
    Nat.lt_of_le_of_lt (m.date.day_range.2.trans (daysInMonth_le _ _)) (by decide)

/-- The hour of the day with two digits. -/
def hour : Column :=
  ofNat ⟨.hour24, 2, by decide⟩ (·.time.hour) (fun _ _ => rfl) fun m =>
    Nat.lt_trans m.time.hour_lt (by decide)

/-- The minute with two digits. -/
def minute : Column :=
  ofNat ⟨.minute, 2, by decide⟩ (·.time.minute) (fun _ _ => rfl) fun m =>
    Nat.lt_trans m.time.minute_lt (by decide)

/-- The second with two digits. -/
def second : Column :=
  ofNat ⟨.second, 2, by decide⟩ (·.time.second) (fun _ _ => rfl) fun m =>
    Nat.lt_trans m.time.second_lt (by decide)

/-- The milliseconds with three digits. -/
def millis : Column :=
  ofNat ⟨.millis, 3, by decide⟩ (·.time.millis) (fun _ _ => rfl) fun _ =>
    Nat.lt_of_le_of_lt (Nat.min_le_right _ _) (by decide)

/-- How the field of a column is written in a pattern. -/
def spelling (column : Column) : List Char := (Token.field column.field).spelling

end Column

section Columns

variable {a b m : Moment} {twelveHour : Bool}

/-- A column by itself shows its number. -/
theorem exists_render_column (column : Column) (h : m.HasFourDigitYear) :
    ∃ n : Nat, column.number m = n ∧ n < 10 ^ column.field.width ∧
      m.render twelveHour column.spelling = padded column.field.width n := by
  obtain ⟨n, hn, hfits, htext⟩ := column.shows m twelveHour h
  refine ⟨n, hn, hfits, ?_⟩
  have hlongest : (Token.field column.field).Longest [] :=
    longest_field (k := 0) (by simp) fun _ _ hw => hw
  have hrender : m.render twelveHour (column.spelling ++ []) =
      column.field.part.text m twelveHour column.field.width ++ m.render twelveHour [] :=
    render_spelling hlongest
  rwa [List.append_nil, Moment.render_nil, String.append_empty, htext] at hrender

/-- A column is as wide as its field, whatever the moment is. -/
theorem length_column (column : Column) (h : m.HasFourDigitYear) :
    (m.render twelveHour column.spelling).toList.length = column.field.width := by
  obtain ⟨n, -, hfits, hrender⟩ := exists_render_column column h
  rw [hrender, length_padded (Part.pos_of_mem_widths column.field.width_mem) hfits]

/-- Numbers that are not negative are compared as integers as they are as naturals. -/
theorem compare_natCast (m n : Nat) : compare (m : Int) (n : Int) = compare m n := by
  simp only [compare, compareOfLessAndEq, Int.ofNat_lt, Int.ofNat_inj]

/-- A column is ordered as its number is. -/
theorem compare_column (column : Column) (ha : a.HasFourDigitYear) (hb : b.HasFourDigitYear) :
    compare (a.render twelveHour column.spelling).toList
        (b.render twelveHour column.spelling).toList =
      compare (column.number a) (column.number b) := by
  obtain ⟨x, hx, hxfits, hxrender⟩ := exists_render_column column ha
  obtain ⟨y, hy, hyfits, hyrender⟩ := exists_render_column column hb
  rw [hxrender, hyrender, hx, hy, compare_natCast]
  exact compare_padded (Part.pos_of_mem_widths column.field.width_mem) hxfits hyfits

end Columns

/-! ## Rows -/

/-- The pattern of some columns, each but the first behind its separator. -/
def row : Column → List (Char × Column) → List Char
  | first, [] => first.spelling
  | first, (c, next) :: others => first.spelling ++ c :: row next others

/-- The numbers that a row shows of a moment. -/
def readings (m : Moment) (first : Column) (others : List (Char × Column)) : List Int :=
  first.number m :: others.map fun column => column.2.number m

/-- The texts of a row are ordered as the numbers in it are. -/
theorem compare_row {a b : Moment} {twelveHour : Bool} (ha : a.HasFourDigitYear)
    (hb : b.HasFourDigitYear) (first : Column) (others : List (Char × Column))
    (hseparators : ∀ column ∈ others, IsSeparator column.1) :
    compare (a.render twelveHour (row first others)).toList
        (b.render twelveHour (row first others)).toList =
      compare (readings a first others) (readings b first others) := by
  induction others generalizing first with
  | nil =>
    rw [row, compare_column first ha hb, readings, readings, List.compare_cons_cons]
    exact Ordering.then_eq.symm
  | cons column others ih =>
    obtain ⟨c, next⟩ := column
    obtain ⟨hc, hothers⟩ := List.forall_mem_cons.mp hseparators
    have hlength : (a.render twelveHour first.spelling).toList.length =
        (b.render twelveHour first.spelling).toList.length :=
      (length_column first ha).trans (length_column first hb).symm
    have heven : Even (first.spelling.count '\'') := Token.even_count_field first.field
    rw [row, render_append_separator a twelveHour heven hc,
      render_append_separator b twelveHour heven hc]
    simp only [String.toList_append, String.toList_singleton, List.append_assoc,
      List.singleton_append]
    rw [compare_append hlength, List.compare_cons_cons, Std.ReflOrd.compare_self, Ordering.eq_then,
      compare_column first ha hb, ih next hothers]
    simp only [readings, List.map_cons, List.compare_cons_cons]

/-- Texts are the same exactly when they compare as equal, and so are rows of numbers. -/
theorem eq_iff_of_compare {s t : String} {xs ys : List Int}
    (h : compare s.toList t.toList = compare xs ys) : s = t ↔ xs = ys := by
  rw [← String.toList_inj, ← Std.compare_eq_iff_eq, h, Std.compare_eq_iff_eq]

/-- The pattern of time stamps to the second. -/
theorem row_toSecond : "yyyy-MM-dd HH-mm-ss".toList =
    row .year [('-', .month), ('-', .day), (' ', .hour), ('-', .minute), ('-', .second)] := by
  decide

/-- The pattern of time stamps to the millisecond. -/
theorem row_toMillis : "yyyy-MM-dd HH-mm-ss.zzz".toList =
    row .year [('-', .month), ('-', .day), (' ', .hour), ('-', .minute), ('-', .second),
      ('.', .millis)] := by
  decide

theorem compare_format_row {a b : Moment} {pattern : String} {first : Column}
    {others : List (Char × Column)} (ha : a.HasFourDigitYear) (hb : b.HasFourDigitYear)
    (hpattern : pattern.toList = row first others)
    (hseparators : ∀ column ∈ others, IsSeparator column.1) :
    compare (a.format pattern).toList (b.format pattern).toList =
      compare (readings a first others) (readings b first others) := by
  rw [Moment.format, Moment.format, hpattern]
  exact compare_row ha hb first others hseparators

/-- The time stamps of two moments are ordered, code point by code point, as their dates and times
are, and they are the same only if these are. This holds to the millisecond, and to the second, as a
screenshot is named by default. -/
theorem compare_format_stamp (a b : Moment) (ha : a.HasFourDigitYear) (hb : b.HasFourDigitYear) :
    (compare (a.format "yyyy-MM-dd HH-mm-ss.zzz").toList
          (b.format "yyyy-MM-dd HH-mm-ss.zzz").toList = compare a.toMillis b.toMillis ∧
      (a.format "yyyy-MM-dd HH-mm-ss.zzz" = b.format "yyyy-MM-dd HH-mm-ss.zzz" ↔
        a.toMillis = b.toMillis)) ∧
    (compare (a.format "yyyy-MM-dd HH-mm-ss").toList
          (b.format "yyyy-MM-dd HH-mm-ss").toList = compare a.toSecond b.toSecond ∧
      (a.format "yyyy-MM-dd HH-mm-ss" = b.format "yyyy-MM-dd HH-mm-ss" ↔
        a.toSecond = b.toSecond)) ∧
    ∀ (ctx : Context) (now : Moment), ctx.render now (default : Configuration).screenshot =
      baseName ctx.fileName ++ " " ++ now.format "yyyy-MM-dd HH-mm-ss" ++ " " ++
        (PlaybackTime.ofSeconds ctx.position).select 'P' := by
  have hmillis : compare (a.format "yyyy-MM-dd HH-mm-ss.zzz").toList
      (b.format "yyyy-MM-dd HH-mm-ss.zzz").toList = compare a.toMillis b.toMillis :=
    compare_format_row ha hb row_toMillis (by decide)
  have hsecond : compare (a.format "yyyy-MM-dd HH-mm-ss").toList
      (b.format "yyyy-MM-dd HH-mm-ss").toList = compare a.toSecond b.toSecond :=
    compare_format_row ha hb row_toSecond (by decide)
  refine ⟨⟨hmillis, eq_iff_of_compare hmillis⟩, ⟨hsecond, eq_iff_of_compare hsecond⟩,
    fun ctx now => ?_⟩
  have htokens : tokens (default : Configuration).screenshot.toList =
      [.baseName, .char ' ', .moment "yyyy-MM-dd HH-mm-ss".toList, .char ' ',
        .time .position (some 'P')] := by
    decide +kernel
  rw [Context.render, renderChars_eq_join_emit, htokens]
  simp [String.join_cons, Inline.Token.emit, TimeMark.seconds, String.append_assoc]

/-- The last moment of a leap second, and the year that begins after it, in different zones. -/
theorem compare_format_stamp_leapSecond :
    let a : Moment := ⟨⟨2016, 12, 31, by decide, by decide⟩,
      ⟨23, 59, 59, 1999999999, by decide, by decide, by decide, by decide⟩, .utc⟩
    let b : Moment := ⟨⟨2017, 1, 1, by decide, by decide⟩,
      ⟨0, 0, 0, 0, by decide, by decide, by decide, by decide⟩, .offset 28800⟩
    (a.HasFourDigitYear ∧ b.HasFourDigitYear) ∧
      compare (a.format "yyyy-MM-dd HH-mm-ss.zzz").toList
        (b.format "yyyy-MM-dd HH-mm-ss.zzz").toList = compare a.toMillis b.toMillis ∧
      compare (a.format "yyyy-MM-dd HH-mm-ss").toList
        (b.format "yyyy-MM-dd HH-mm-ss").toList = compare a.toSecond b.toSecond ∧
      a.format "yyyy-MM-dd HH-mm-ss.zzz" = "2016-12-31 23-59-59.999" := by
  intro a b
  have ha : a.HasFourDigitYear := ⟨by decide, by decide⟩
  have hb : b.HasFourDigitYear := ⟨by decide, by decide⟩
  obtain ⟨hmillis, hsecond, -⟩ := compare_format_stamp a b ha hb
  exact ⟨⟨ha, hb⟩, hmillis.1, hsecond.1, by decide +kernel⟩

end PlayerText.Clock
