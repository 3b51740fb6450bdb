import PlayerText.Json.Reading
import PlayerText.Number.Scaling
import PlayerText.Number.Shortest

/-!
# JSON numbers

* `Literal`, `literal`: a number as it is written, and its reader.
* `Number`: what a literal stands for. Without fraction and exponent it is an integer if it has 64
  bits, signed or not; all other literals, and minus zero, are binary64 numbers.
* `Literal.decimal`: the digits of a literal that go into its binary64 number.
* `Literal.number?`: the number of a literal; a magnitude beyond all finite numbers is none.
* `Number.text`: the number in writing.
-/

namespace PlayerText.Json

open PlayerText.Number

/-- The value of a JSON number. -/
inductive Number where
  /-- A 64-bit integer, signed or unsigned. -/
  | integer (value : Int)
  /-- A binary64 number by its sign and its magnitude in units. -/
  | real (negative : Bool) (units : Nat)
  deriving DecidableEq

/-- A number in writing: the digits of an integer, or the shortest decimal. -/
def Number.text : Number → String
  | .integer value => if value < 0 then "-" ++ numeral value.natAbs else numeral value.natAbs
  | .real negative units => if negative then "-" ++ shortestText units else shortestText units

/-- A number as it is written. -/
structure Literal where
  /-- Whether it has a minus sign. -/
  negative : Bool
  /-- The digits before the point. -/
  whole : List Char
  /-- The digits after the point; none if there is no point. -/
  fraction : List Char
  /-- The exponent, if there is one. -/
  exponent : Option Int
  deriving DecidableEq

/-! ## Values -/

/-- A number with one more digit. -/
def appendDigit (n : Nat) (d : Char) : Nat := 10 * n + (d.toNat - '0'.toNat)

/-- The number that some digits are. -/
def valueOfDigits (ds : List Char) : Nat := ds.foldl appendDigit 0

/-- A number with some of the digits after it, and how many of them were left over. -/
structure Significand where
  /-- The number that the digits make. -/
  value : Nat
  /-- How many digits did not go into it. -/
  left : Nat
  deriving DecidableEq

/-- Appends digits to a number, up to the first with which it would have more than 64 bits. -/
def Significand.append (value : Nat) : List Char → Significand
  | [] => ⟨value, 0⟩
  | d :: ds =>
    let longer := appendDigit value d
    if longer < Nat.pow 2 64 then append longer ds else ⟨value, ds.length + 1⟩

/-- The decimal that is kept of a literal. Digits that do not fit in 64 bits are dropped; those
before the point still count as places, and those after it are tried anew. -/
def Literal.decimal (l : Literal) : Decimal :=
  let whole := Significand.append 0 l.whole
  let all := Significand.append whole.value l.fraction
  ⟨all.value, l.exponent.getD 0 + whole.left - (l.fraction.length - all.left : Nat)⟩

/-- The number that a literal stands for. -/
def Literal.number? (l : Literal) : Option Number :=
  let value := valueOfDigits l.whole
  let real := l.decimal.magnitude?.map (.real l.negative)
  if l.fraction = [] ∧ l.exponent = none then
    if l.negative then
      if 0 < value ∧ value ≤ Nat.pow 2 63 then some (.integer (-value)) else real
    else if value < Nat.pow 2 64 then some (.integer value) else real
  else real

/-! ## Reading -/

/-- Reads digits, at least one. -/
def digitRun : Reader (List Char)
  | [] => .error .truncated
  | c :: r =>
    if c.isDigit then
      .ok ⟨c :: r.takeWhile Char.isDigit, r.dropWhile Char.isDigit,
        Nat.lt_succ_of_le (List.dropWhile_sublist _).length_le⟩
    else .error .malformed

/-- Reads the digits before the point. Only the number zero begins with the digit zero. -/
def wholeDigits : Reader (List Char) := digitRun.bind fun ds =>
  if ds.head? = some '0' ∧ ds.length ≠ 1 then .fail .malformed else .ret ds

/-- Reads the point and the digits after it, if there is a point. -/
def fractionDigits : Tail (List Char) := fun cs =>
  if cs.head? = some '.' then ((expect '.').andThen fun _ => digitRun).toTail cs
  else Tail.ret [] cs

/-- Reads the sign and the digits of an exponent. -/
def exponentValue : Reader Int := fun cs =>
  if cs.head? = some '-' then
    (expect '-').andThen (fun _ => digitRun.map fun ds => -(valueOfDigits ds : Int)) cs
  else if cs.head? = some '+' then
    (expect '+').andThen (fun _ => digitRun.map fun ds => (valueOfDigits ds : Int)) cs
  else digitRun.map (fun ds => (valueOfDigits ds : Int)) cs

/-- Reads an exponent, if there is one. -/
def exponent : Tail (Option Int) := fun cs =>
  match cs.head?.filter fun c => c = 'e' ∨ c = 'E' with
  | some mark => ((expect mark).andThen fun _ => exponentValue.map some).toTail cs
  | none => Tail.ret none cs

/-- Reads a number without its sign. -/
def unsignedLiteral (negative : Bool) : Reader Literal :=
  wholeDigits.bind fun whole => fractionDigits.bind fun fraction => exponent.bind fun power =>
    .ret ⟨negative, whole, fraction, power⟩

/-- Reads a number as it is written. -/
def literal : Reader Literal := fun cs =>
  if cs.head? = some '-' then (expect '-').andThen (fun _ => unsignedLiteral true) cs
  else unsignedLiteral false cs

/-- Reads a number. -/
def number : Reader Number := literal.bind fun written =>
  match written.number? with
  | some n => .ret n
  | none => .fail .malformed

/-- Reads a number that nobody will see, of any magnitude. All its faults are one. -/
def looseNumber : Reader Unit := fun cs =>
  (literal.map (fun _ => ()) cs).mapError fun _ => .malformed

end PlayerText.Json
