import PlayerText.Json.Skip

/-!
# JSON in writing

What a JSON text is, said without a reader. Any space may stand between its parts, and there are
several ways to write a character or a number. A value that nobody will see may hold what names no
character: the rules for its strings ask for the form of an escape only.

* `Space`: what may stand between values.
* `HexText`, `UnicodeText`, `LooseUnicodeText`, `CharText`, `Spelling`: the characters of a string.
* `StringText`, `LooseStringText`: a string with its quotes.
* `FractionText`, `PowerText`, `Literal.IsText`: a number.
* `ScalarText`, `ValueText`, `RowText`: a value, and what stands between the brackets of a
  container.
* `Label`, `Member`, `Member.row`, `Member.lead`, `ObjectText`: an object, with its members as they
  are written.
-/

namespace PlayerText.Json

/-- Space between values, or none. -/
abbrev Space := { cs : List Char // cs.all isSpace = true }

/-! ## Strings -/

/-- Four hexadecimal digits and their number. -/
inductive HexText : List Char → Nat → Prop where
  | intro {a b c d : Char} {i j k l : Nat} : hexValue? a = some i → hexValue? b = some j →
      hexValue? c = some k → hexValue? d = some l →
      HexText [a, b, c, d] (((i * 16 + j) * 16 + k) * 16 + l)

/-- What stands behind `\u`, and the character that it names. -/
inductive UnicodeText : List Char → Char → Prop where
  | single {cs : List Char} {n : Nat} : HexText cs n → isLowSurrogate n = false →
      isHighSurrogate n = false → UnicodeText cs (Char.ofNat n)
  /-- The two halves of a surrogate pair, each with an escape of its own. -/
  | pair {cs ds : List Char} {high low : Nat} : HexText cs high → isHighSurrogate high = true →
      HexText ds low → isLowSurrogate low = true →
      UnicodeText (cs ++ '\\' :: 'u' :: ds) (ofSurrogates high low)

/-- What may stand behind `\u` where no character is asked for. -/
inductive LooseUnicodeText : List Char → Char → Prop where
  | intro {cs : List Char} {n : Nat} : HexText cs n → LooseUnicodeText cs '\x00'

/-- A character inside a string, where `Unicode` tells what may stand behind `\u`. -/
inductive CharText (Unicode : List Char → Char → Prop) : List Char → Char → Prop where
  | plain {c : Char} : c ≠ '"' → c ≠ '\\' → ¬c.toNat < 0x20 → CharText Unicode [c] c
  | short {c d : Char} : shortEscape? c = some d → CharText Unicode ['\\', c] d
  | unicode {cs : List Char} {c : Char} : Unicode cs c → CharText Unicode ('\\' :: 'u' :: cs) c

/-- What stands between the quotes of a string, and the characters that it stands for. -/
inductive Spelling (Unicode : List Char → Char → Prop) : List Char → List Char → Prop where
  | nil : Spelling Unicode [] []
  | cons {cs spelled text : List Char} {c : Char} : CharText Unicode cs c →
      Spelling Unicode spelled text → Spelling Unicode (cs ++ spelled) (c :: text)

/-- A string with its quotes, and its text. -/
def StringText (v : List Char) (text : String) : Prop :=
  ∃ spelled, Spelling UnicodeText spelled text.toList ∧ v = '"' :: (spelled ++ ['"'])

/-- A string with its quotes, be it the string of a text or not. -/
def LooseStringText (v : List Char) : Prop :=
  ∃ spelled text, Spelling LooseUnicodeText spelled text ∧ v = '"' :: (spelled ++ ['"'])

/-! ## Numbers -/

/-- Digits, at least one. -/
def IsDigits (ds : List Char) : Prop := ds ≠ [] ∧ ds.all Char.isDigit = true

/-- The digits after the point, with the point; nothing if there are none. -/
inductive FractionText : List Char → List Char → Prop where
  | absent : FractionText [] []
  | point {ds : List Char} : IsDigits ds → FractionText ('.' :: ds) ds

/-- The power of ten at the end of a number, if there is one. -/
inductive PowerText : List Char → Option Int → Prop where
  | absent : PowerText [] none
  | unsigned {mark : Char} {ds : List Char} : mark = 'e' ∨ mark = 'E' → IsDigits ds →
      PowerText (mark :: ds) (some (valueOfDigits ds))
  | plus {mark : Char} {ds : List Char} : mark = 'e' ∨ mark = 'E' → IsDigits ds →
      PowerText (mark :: '+' :: ds) (some (valueOfDigits ds))
  | minus {mark : Char} {ds : List Char} : mark = 'e' ∨ mark = 'E' → IsDigits ds →
      PowerText (mark :: '-' :: ds) (some (-valueOfDigits ds))

/-- The digits before the point: no zero stands in front of another digit. -/
def IsWhole (ds : List Char) : Prop := IsDigits ds ∧ (ds.head? = some '0' → ds.length = 1)

/-- A number as it is written. -/
def Literal.IsText (l : Literal) (v : List Char) : Prop :=
  ∃ fraction power, IsWhole l.whole ∧ FractionText fraction l.fraction ∧ PowerText power l.exponent ∧
    v = (if l.negative then ['-'] else []) ++ (l.whole ++ (fraction ++ power))

/-! ## Values -/

/-- What opens a container. -/
def Container.opening : Container → Char
  | .array => '['
  | .object => '\x7b'

/-- What stands in front of a value in a container: in an object a name and a colon. -/
inductive NameText : Container → List Char → Prop where
  | array : NameText .array []
  | object (before between : Space) {name : List Char} : LooseStringText name →
      NameText .object (before.1 ++ (name ++ (between.1 ++ [':'])))

/-- A value that is no container: a word, a string of any escapes or a number of any magnitude. -/
inductive ScalarText : List Char → Prop where
  | null : ScalarText ['n', 'u', 'l', 'l']
  | true : ScalarText ['t', 'r', 'u', 'e']
  | false : ScalarText ['f', 'a', 'l', 's', 'e']
  | string {v : List Char} : LooseStringText v → ScalarText v
  | number {l : Literal} {v : List Char} : l.IsText v → ScalarText v

mutual

/-- A value in writing. Containers may be nested to any depth. -/
inductive ValueText : List Char → Prop where
  | scalar {v : List Char} : ScalarText v → ValueText v
  | empty (kind : Container) (inside : Space) :
      ValueText (kind.opening :: (inside.1 ++ [kind.close]))
  | row (kind : Container) {row : List Char} : RowText kind row →
      ValueText (kind.opening :: (row ++ [kind.close]))

/-- Values between the brackets of a container, at least one, with commas between them. -/
inductive RowText : Container → List Char → Prop where
  | last {kind : Container} {name v : List Char} (before behind : Space) : NameText kind name →
      ValueText v → RowText kind (name ++ (before.1 ++ (v ++ behind.1)))
  | cons {kind : Container} {name v row : List Char} (before behind : Space) : NameText kind name →
      ValueText v → RowText kind row →
      RowText kind (name ++ (before.1 ++ (v ++ (behind.1 ++ ',' :: row))))

end

/-! ## Objects -/

/-- What a member of an object begins with: its name, which is a text, and a colon. -/
structure Label where
  /-- The name. -/
  name : String
  /-- The name in quotes. -/
  quoted : List Char
  /-- The space in front of the name. -/
  before : Space
  /-- The space between the name and the colon. -/
  between : Space
  /-- The name is written as a string. -/
  stringText : StringText quoted name

/-- The characters of a label. -/
def Label.text (label : Label) : List Char :=
  label.before.1 ++ (label.quoted ++ (label.between.1 ++ [':']))

/-- A member of an object as it is written. -/
structure Member extends Label where
  /-- The value as it is written. -/
  value : List Char
  /-- The space in front of the value. -/
  ahead : Space
  /-- The space behind the value. -/
  behind : Space
  /-- The value is one. -/
  valueText : ValueText value

namespace Member

/-- The characters of a member. -/
def text (m : Member) : List Char := m.toLabel.text ++ (m.ahead.1 ++ (m.value ++ m.behind.1))

/-- Some members with commas between them. -/
def row : List Member → List Char
  | [] => []
  | [m] => m.text
  | m :: next :: others => m.text ++ ',' :: row (next :: others)

/-- Some members, each with the comma that announces another. -/
def lead (ms : List Member) : List Char := ms.flatMap fun m => m.text ++ [',']

end Member

/-- A text that is an object with some members. -/
def ObjectText (text : List Char) (members : List Member) : Prop :=
  ∃ before inside behind : Space,
    text = before.1 ++ '\x7b' :: (inside.1 ++ (Member.row members ++ '\x7d' :: behind.1))

end PlayerText.Json
