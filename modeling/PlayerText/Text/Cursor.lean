/-!
# Places in a text, counted in bytes

A cursor stands in a text that is read from the front. Its place is the number of UTF-8 bytes in
front of it, and whatever it reads is cut out of the text by such numbers. A cut inside a character
is no text: then there is no result at all.

* `fromByte?`, `upToByte?`: the text behind a byte, and the text in front of it.
* `findByte?`: the place of a character.
* `Cursor.peek`, `Cursor.next`, `Cursor.eat`: the character at the place.
* `Cursor.group`, `Cursor.upTo`: the text in braces, and the text before a character.
* `fromByte?_append`, `upToByte?_append`, `findByte?_append`: between two characters a text can be
  cut, and there the first occurrence of a character is found.
-/

namespace PlayerText.Text

/-- The text from a byte on; nothing if the byte is inside a character or behind the text. -/
def fromByte? (s : String) (n : Nat) : Option String :=
  if h : String.Pos.Raw.IsValid s ⟨n⟩ then some (s.sliceFrom (s.pos ⟨n⟩ h)).copy else none

/-- The text in front of a byte; nothing if the byte is inside a character or behind the text. -/
def upToByte? (s : String) (n : Nat) : Option String :=
  if h : String.Pos.Raw.IsValid s ⟨n⟩ then some (s.sliceTo (s.pos ⟨n⟩ h)).copy else none

/-- The number of bytes in front of the first `c`; nothing if there is no `c`. -/
def findByte? (s : String) (c : Char) : Option Nat := (s.find? c).map fun p => p.offset.byteIdx

/-- A place in a text. -/
structure Cursor where
  /-- The whole text. -/
  source : String
  /-- How many bytes of it are in front of the place. -/
  position : Nat
  deriving DecidableEq

namespace Cursor

/-- The place in front of a text. -/
def start (source : String) : Cursor := ⟨source, 0⟩

/-- The text from the place on. -/
def rest? (c : Cursor) : Option String := fromByte? c.source c.position

/-- The place some bytes further on. -/
def advance (c : Cursor) (bytes : Nat) : Cursor := { c with position := c.position + bytes }

/-- The character at the place, if the text is not at its end. -/
def peek (c : Cursor) : Option (Option Char) := c.rest?.map String.front?

/-- Reads one character, if the text is not at its end. -/
def next (c : Cursor) : Option (Option Char × Cursor) := do
  match ← c.peek with
  | none => return (none, c)
  | some char => return (some char, c.advance char.utf8Size)

/-- Reads one character if it is the one that is expected, and tells whether it was. -/
def eat (c : Cursor) (expected : Char) : Option (Bool × Cursor) := do
  if (← c.peek) = some expected then
    return (true, c.advance expected.utf8Size)
  else
    return (false, c)

/-- Reads a group with its braces and gives the text between them. A group that is not closed runs
to the end of the text. Where no brace opens nothing is read. -/
def group (c : Cursor) : Option (String × Cursor) := do
  match ← c.eat '{' with
  | (false, c) => return ("", c)
  | (true, c) =>
    let rest ← c.rest?
    match findByte? rest '}' with
    | some n => return (← upToByte? rest n, c.advance (n + 1))
    | none => return (rest, { c with position := c.source.utf8ByteSize })

/-- Reads the text before the next `stop`. If there is no `stop` nothing is read. -/
def upTo (c : Cursor) (stop : Char) : Option (Option String × Cursor) := do
  let rest ← c.rest?
  match findByte? rest stop with
  | some n => return (some (← upToByte? rest n), c.advance n)
  | none => return (none, c)

end Cursor

theorem isValid_utf8ByteSize (before after : String) :
    String.Pos.Raw.IsValid (before ++ after) ⟨before.utf8ByteSize⟩ :=
  String.Pos.Raw.isValid_iff_exists_append.mpr ⟨before, after, rfl, rfl⟩

theorem fromByte?_append (before after : String) :
    fromByte? (before ++ after) before.utf8ByteSize = some after := by
  have h := isValid_utf8ByteSize before after
  rw [fromByte?, dif_pos h]
  exact congrArg some (String.Pos.Splits.mk rfl rfl).copy_sliceFrom_eq

/-- The second byte of a character begins no text. -/
example : fromByte? "é" 1 = none ∧ fromByte? "é" 2 = some "" := by decide

theorem upToByte?_append (before after : String) :
    upToByte? (before ++ after) before.utf8ByteSize = some before := by
  have h := isValid_utf8ByteSize before after
  rw [upToByte?, dif_pos h]
  exact congrArg some (String.Pos.Splits.mk rfl rfl).copy_sliceTo_eq

theorem findByte?_append {before after : String} {c : Char} (h : c ∉ before.toList) :
    findByte? (before ++ (String.singleton c ++ after)) c = some before.utf8ByteSize := by
  have hfind := String.find?_char_eq_some_iff_splits.mpr
    ⟨before, after, String.Pos.splits_ofEqAppend rfl, h⟩
  rw [findByte?, hfind]
  rfl

theorem findByte?_eq_none {s : String} {c : Char} (h : c ∉ s.toList) : findByte? s c = none := by
  rw [findByte?, Option.map_eq_none_iff, Option.eq_none_iff_forall_ne_some]
  intro p hfind
  obtain ⟨before, after, hsplits, -⟩ := String.find?_char_eq_some_iff_splits.mp hfind
  exact h (by rw [hsplits.eq_append]; simp)

end PlayerText.Text
