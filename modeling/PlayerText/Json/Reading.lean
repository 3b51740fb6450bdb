import PlayerText.Error

/-!
# Reading JSON text

A reader takes a value from the front of a text and gives the value with the text after it, which
is shorter: so every loop over readers ends. A text that cannot be read gives the first fault from
left to right.

* `Reader`, `Tail`: what reads a value of at least one character, or of any number of them.
* `Reader.bind`, `Reader.andThen`, `Tail.bind`: one after the other.
* `spaced`, `expect`, `keyword`, `separator`, `closes?`: the marks between values.
* `many`: values up to an end.
* `array`, `itemsUpTo`: the items of an array.
* `object`: the members of an object, each taken into a state.
* `readAll`: a whole text, with nothing but space around the value.
-/

namespace PlayerText.Json

variable {α β σ : Type} {a b : Nat}

/-- A value from the front of a text, and the rest, which has fewer than `bound` characters. -/
structure Reading (bound : Nat) (α : Type) where
  /-- The value. -/
  value : α
  /-- The text after it. -/
  rest : List Char
  /-- The rest is within the bound. -/
  shorter : rest.length < bound

/-- Reads a value from the front of a text. -/
abbrev Reader (α : Type) := (cs : List Char) → Except JsonFault (Reading cs.length α)

/-- Reads a value that may be no character at all from the front of a text. -/
abbrev Tail (α : Type) := (cs : List Char) → Except JsonFault (Reading (cs.length + 1) α)

/-! ## Combining readers -/

namespace Reading

/-- The same reading under a bound that is at least as large. -/
def mono (r : Reading a α) (h : a ≤ b) : Reading b α :=
  ⟨r.value, r.rest, Nat.lt_of_lt_of_le r.shorter h⟩

/-- Another value read from the same text. -/
def map (f : α → β) (r : Reading a α) : Reading a β := ⟨f r.value, r.rest, r.shorter⟩

/-- A value read from one character. -/
def ofHead (value : α) (c : Char) (r : List Char) : Reading (c :: r).length α :=
  ⟨value, r, Nat.lt_succ_self r.length⟩

/-- Reads on after a reading. -/
def bind (r : Reading a α) (next : α → Tail β) : Except JsonFault (Reading a β) :=
  (next r.value r.rest).map (·.mono (Nat.succ_le_of_lt r.shorter))

end Reading

/-- What was read after a first character. -/
def afterHead (c : Char) {r : List Char} (result : Except JsonFault (Reading r.length α)) :
    Except JsonFault (Reading (c :: r).length α) :=
  result.map (·.mono (Nat.le_succ r.length))

namespace Tail

/-- Reads nothing. -/
def ret (value : α) : Tail α := fun cs => .ok ⟨value, cs, Nat.lt_succ_self cs.length⟩

/-- Reads nothing, which is a fault. -/
def fail (fault : JsonFault) : Tail α := fun _ => .error fault

/-- Reads one value and then another. -/
def bind (p : Tail α) (next : α → Tail β) : Tail β := fun cs => do
  (← p cs).bind next

end Tail

namespace Reader

/-- Reads the same text as another value. -/
def map (f : α → β) (p : Reader α) : Reader β := fun cs => (p cs).map (·.map f)

/-- A value of at least one character is one of any number. -/
def toTail (p : Reader α) : Tail α := fun cs => (p cs).map (·.mono (Nat.le_succ cs.length))

/-- Reads one value and then what may be nothing. -/
def bind (p : Reader α) (next : α → Tail β) : Reader β := fun cs => do
  (← p cs).bind next

/-- Reads one value and then another. -/
def andThen (p : Reader α) (next : α → Reader β) : Reader β :=
  p.bind fun a => (next a).toTail

end Reader

/-! ## Space and marks -/

/-- The characters that may stand between values. -/
def isSpace (c : Char) : Bool := c == ' ' || c == '\t' || c == '\n' || c == '\r'

/-- A text from its first character that is no space. -/
def skipSpace (cs : List Char) : List Char := cs.dropWhile isSpace

theorem length_skipSpace_le (cs : List Char) : (skipSpace cs).length ≤ cs.length :=
  (List.dropWhile_sublist _).length_le

/-- Reads after the space in front. -/
def spaced (reader : Reader α) : Reader α := fun cs =>
  (reader (skipSpace cs)).map (·.mono (length_skipSpace_le cs))

/-- Reads one given character. -/
def expect (c : Char) : Reader Unit
  | [] => .error .truncated
  | d :: r => if d = c then .ok (.ofHead () d r) else .error .malformed

/-- Reads the rest of a word whose first character was read. -/
def keyword (value : α) : List Char → Tail α
  | [] => .ret value
  | c :: word => ((expect c).bind fun _ => keyword value word).toTail

/-- Reads what follows an item: a comma, after which another has to follow, or the end. Tells
whether it was the comma. -/
def separator (close : Char) : Reader Bool := spaced fun
  | [] => .error .truncated
  | c :: r =>
    if c = ',' then .ok (.ofHead true c r)
    else if c = close then .ok (.ofHead false c r)
    else .error .malformed

/-- Reads `close` after some space, if the text goes on with it. -/
def closes? (close : Char) (cs : List Char) : Option (Reading cs.length Unit) :=
  (spaced (expect close) cs).toOption

/-! ## Arrays and other rows -/

/-- Reads values up to the first that is none. -/
def many (item : Reader (Option α)) (cs : List Char) :
    Except JsonFault (Reading cs.length (List α)) := do
  let first ← item cs
  have := first.shorter
  match first.value with
  | none => .ok (first.map fun _ => [])
  | some value =>
    let others ← many item first.rest
    .ok ((others.map (value :: ·)).mono (by omega))
termination_by cs.length

/-- Reads one item and those after it, up to the end of the array. -/
def items (item : Reader α) (cs : List Char) : Except JsonFault (Reading cs.length (List α)) := do
  let first ← item cs
  let mark ← separator ']' first.rest
  have := first.shorter
  have := mark.shorter
  if mark.value then
    let others ← items item mark.rest
    .ok ((others.map (first.value :: ·)).mono (by omega))
  else
    .ok ((mark.map fun _ => [first.value]).mono (by omega))
termination_by cs.length

/-- Reads an array after its opening bracket. -/
def array (item : Reader α) : Reader (List α) := fun cs =>
  match closes? ']' cs with
  | some done => .ok (done.map fun _ => [])
  | none => items item cs

/-- Reads what follows an item of an array that may have `more` items after it. -/
def itemsAfter (item : Reader α) : (more : Nat) → Reader (List α)
  | 0 => (spaced (expect ']')).map fun _ => []
  | more + 1 => (separator ']').bind fun
    | true => (item.andThen fun value => (itemsAfter item more).map (value :: ·)).toTail
    | false => .ret []

/-- Reads an array of at most `limit + 1` items after its opening bracket. -/
def itemsUpTo (limit : Nat) (item : Reader α) : Reader (List α) := fun cs =>
  match closes? ']' cs with
  | some done => .ok (done.map fun _ => [])
  | none => item.andThen (fun value => (itemsAfter item limit).map (value :: ·)) cs

/-! ## Objects -/

/-- Reads one member and those after it, up to the end of the object. `key` reads a key and
`member` all that follows it, from the colon on, into the state. -/
def members (key : Reader String) (member : σ → String → Reader σ) (s : σ) (cs : List Char) :
    Except JsonFault (Reading cs.length σ) := do
  let next ← key.andThen (member s) cs
  let mark ← separator '\x7d' next.rest
  have := next.shorter
  have := mark.shorter
  if mark.value then
    let others ← members key member next.value mark.rest
    .ok (others.mono (by omega))
  else
    .ok ((mark.map fun _ => next.value).mono (by omega))
termination_by cs.length

/-- Reads an object after its opening brace, beginning with a state. -/
def object (key : Reader String) (member : σ → String → Reader σ) (s : σ) : Reader σ := fun cs =>
  match closes? '\x7d' cs with
  | some done => .ok (done.map fun _ => s)
  | none => members key member s cs

/-! ## Whole texts -/

/-- Reads a text that holds one value and space around it. -/
def readAll (reader : Reader α) (text : String) : Except JsonFault α := do
  let result ← reader text.toList
  if skipSpace result.rest = [] then .ok result.value else .error .malformed

end PlayerText.Json
