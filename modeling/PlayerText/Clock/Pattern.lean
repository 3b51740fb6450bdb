import PlayerText.Clock.Moment
import PlayerText.Number.Numeral

/-!
# Date and time patterns

A pattern is a text in which runs of certain letters stand for parts of a moment: `d`, `M`, `y`,
`h`, `H`, `m`, `s`, `z`, the markers `AP`, `A`, `ap`, `a`, and the zone `t`. A run gives as many
letters as the longest field of that letter has, and goes on with the next field. Text in single
quotes is copied, two quotes are one quote, and so is every other character as it is. Hours are of a
twelve-hour clock if the pattern shows before or after noon somewhere.

* `Moment.field?`: the field that a run of one letter begins with.
* `quoted`: a section in quotes.
* `hasMeridiem`: whether `a` or `A` stands outside quotes.
* `Moment.render`: the text of a pattern, for either kind of hours.
* `Moment.format`: the text of a pattern, with the hours that it asks for.
-/

namespace PlayerText.Clock

open Number

/-- The days of the week in English. -/
def weekdayNames : List String :=
  ["Monday", "Tuesday", "Wednesday", "Thursday", "Friday", "Saturday", "Sunday"]

/-- The months in English. -/
def monthNames : List String :=
  ["January", "February", "March", "April", "May", "June", "July", "August", "September",
    "October", "November", "December"]

/-- The first three letters of a name. -/
def abbreviated (name : String) : String := String.ofList (name.toList.take 3)

/-- A year with at least four characters, its sign being one of them. -/
def yearText (year : Int) : String :=
  if year < 0 then "-" ++ padded 3 year.natAbs else padded 4 year.natAbs

/-- A number with one digit or more, or with at least two. -/
def oneOrTwo (width n : Nat) : String := if width = 1 then numeral n else padded 2 n

/-- A zone in writing: the name `UTC`, or the hours and minutes east of it, with seconds if there
are any. -/
def Zone.text : Zone → String
  | .utc => "UTC"
  | .offset seconds =>
    let total := seconds.natAbs
    (if seconds < 0 then "-" else "+") ++ padded 2 (total / 3600) ++ ":" ++
      padded 2 (total / 60 % 60) ++ if total % 60 = 0 then "" else ":" ++ padded 2 (total % 60)

/-- Whether a marker for before or after noon stands outside quotes, `inQuotes` telling on which
side of a quote the text begins. -/
def hasMeridiemFrom (inQuotes : Bool) : List Char → Bool
  | [] => false
  | '\'' :: r => hasMeridiemFrom (!inQuotes) r
  | c :: r => (!inQuotes && (c == 'a' || c == 'A')) || hasMeridiemFrom inQuotes r

/-- Whether a pattern shows before or after noon. -/
def hasMeridiem (pattern : List Char) : Bool := hasMeridiemFrom false pattern

/-- A quoted section after its first quote: its text, and what follows it. It ends at a quote that
is not doubled, or with the pattern. -/
def quoted : List Char → List Char × List Char
  | [] => ([], [])
  | '\'' :: '\'' :: r => ('\'' :: (quoted r).1, (quoted r).2)
  | '\'' :: r => ([], r)
  | c :: r => (c :: (quoted r).1, (quoted r).2)

theorem length_quoted_le (cs : List Char) : (quoted cs).2.length ≤ cs.length := by
  fun_induction quoted cs <;> simp_all <;> omega

namespace Moment

/-- The marker for before or after noon. -/
def meridiem (m : Moment) (upper : Bool) : String :=
  match upper, m.time.isAfternoon with
  | true, false => "AM"
  | true, true => "PM"
  | false, false => "am"
  | false, true => "pm"

/-- The field that a run of `run` letters `c` begins with: its text and how many of the letters it
takes. Letters without a field have none. -/
def field? (m : Moment) (twelveHour : Bool) (c : Char) (run : Nat) : Option (String × Nat) :=
  let number (n : Nat) : String × Nat := (oneOrTwo (min run 2) n, min run 2)
  let name (names : List String) (i : Nat) : String := names.getD i ""
  match c with
  | 'd' => some <|
    if run = 1 then (numeral m.date.day, 1)
    else if run = 2 then (padded 2 m.date.day, 2)
    else if run = 3 then (abbreviated (name weekdayNames m.date.weekday), 3)
    else (name weekdayNames m.date.weekday, 4)
  | 'M' => some <|
    if run = 1 then (numeral m.date.month, 1)
    else if run = 2 then (padded 2 m.date.month, 2)
    else if run = 3 then (abbreviated (name monthNames (m.date.month - 1)), 3)
    else (name monthNames (m.date.month - 1), 4)
  | 'y' =>
    if 4 ≤ run then some (yearText m.date.year, 4)
    else if 2 ≤ run then some (padded 2 (m.date.year % 100).toNat, 2)
    else none
  | 'h' => some (number (if twelveHour then m.time.hour12 else m.time.hour))
  | 'H' => some (number m.time.hour)
  | 'm' => some (number m.time.minute)
  | 's' => some (number m.time.second)
  | 'z' => some <| if 3 ≤ run then (padded 3 m.time.millis, 3) else (numeral m.time.millis, 1)
  | 't' => some (m.zone.text, 1)
  | _ => none

/-- The text of a pattern, hours being of a twelve-hour clock or not. -/
def render (m : Moment) (twelveHour : Bool) : List Char → String
  | [] => ""
  | '\'' :: '\'' :: r => "'" ++ m.render twelveHour r
  | '\'' :: r =>
    have := length_quoted_le r
    String.ofList (quoted r).1 ++ m.render twelveHour (quoted r).2
  | 'A' :: 'P' :: r | 'A' :: 'p' :: r | 'A' :: r => m.meridiem true ++ m.render twelveHour r
  | 'a' :: 'P' :: r | 'a' :: 'p' :: r | 'a' :: r => m.meridiem false ++ m.render twelveHour r
  | c :: r =>
    match m.field? twelveHour c ((r.takeWhile (· == c)).length + 1) with
    | some (text, taken) => text ++ m.render twelveHour (r.drop (taken - 1))
    | none => c.toString ++ m.render twelveHour r
termination_by cs => cs.length

@[simp] theorem render_nil (m : Moment) (twelveHour : Bool) : m.render twelveHour [] = "" := by
  rw [render]

/-- The text of a pattern. -/
def format (m : Moment) (pattern : String) : String :=
  m.render (hasMeridiem pattern.toList) pattern.toList

end Moment

end PlayerText.Clock
