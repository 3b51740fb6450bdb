import PlayerText.Json.Reading

/-!
# JSON strings

* `quote`: a text as a JSON string. Quotes, backslashes and control characters are escaped, all
  else stands as it is.
* `string`: reads a string after its opening quote. Every escape has to name a character: a high
  surrogate has to be followed by a low one.
* `looseString`: reads a string of a value that is skipped, where any surrogate will do.
* `key`, `afterColon`: the two sides of a member.
-/

namespace PlayerText.Json

/-! ## Writing -/

/-- The lower-case hexadecimal digit of a number below 16. -/
def hexDigit (n : Nat) : Char := Nat.digitChar n

/-- A character inside a string. -/
def escapeChar (c : Char) : List Char :=
  match c with
  | '"' => ['\\', '"']
  | '\\' => ['\\', '\\']
  | '\x08' => ['\\', 'b']
  | '\x0c' => ['\\', 'f']
  | '\n' => ['\\', 'n']
  | '\r' => ['\\', 'r']
  | '\t' => ['\\', 't']
  | c =>
    if c.toNat < 0x20 then
      ['\\', 'u', '0', '0', hexDigit (c.toNat / 16), hexDigit (c.toNat % 16)]
    else [c]

/-- Some characters as a JSON string. -/
def quoteChars (cs : List Char) : List Char := '"' :: cs.flatMap escapeChar ++ ['"']

/-- A text as a JSON string. -/
def quote (text : String) : String := String.ofList (quoteChars text.toList)

/-! ## Escapes -/

/-- The value of a hexadecimal digit of either case. -/
def hexValue? (c : Char) : Option Nat :=
  if '0' ≤ c ∧ c ≤ '9' then some (c.toNat - '0'.toNat)
  else if 'a' ≤ c ∧ c ≤ 'f' then some (c.toNat - 'a'.toNat + 10)
  else if 'A' ≤ c ∧ c ≤ 'F' then some (c.toNat - 'A'.toNat + 10)
  else none

/-- Reads one hexadecimal digit. -/
def hexDigitReader : Reader Nat
  | [] => .error .truncated
  | c :: r => match hexValue? c with
    | some n => .ok (.ofHead n c r)
    | none => .error .malformed

/-- Reads four hexadecimal digits. A text of fewer than four bytes is truncated, whatever it
holds. -/
def hex4 : Reader Nat := fun cs =>
  if (String.ofList (cs.take 4)).utf8ByteSize < 4 then .error .truncated
  else
    (hexDigitReader.andThen fun a => hexDigitReader.andThen fun b => hexDigitReader.andThen fun c =>
      hexDigitReader.map fun d => ((a * 16 + b) * 16 + c) * 16 + d) cs

/-- Whether a number is the first half of a surrogate pair. -/
def isHighSurrogate (n : Nat) : Bool := 0xD800 ≤ n && n ≤ 0xDBFF

/-- Whether a number is the second half of a surrogate pair. -/
def isLowSurrogate (n : Nat) : Bool := 0xDC00 ≤ n && n ≤ 0xDFFF

/-- The character of a surrogate pair. -/
def ofSurrogates (high low : Nat) : Char :=
  Char.ofNat (0x10000 + (high - 0xD800) * 0x400 + (low - 0xDC00))

/-- Reads the second half of a surrogate pair, which is an escape of its own. -/
def lowSurrogate (high : Nat) : Reader Char :=
  (expect '\\').andThen fun _ => (expect 'u').andThen fun _ => hex4.bind fun low =>
    if isLowSurrogate low then .ret (ofSurrogates high low) else .fail .malformed

/-- Reads the digits of a numeric escape, and the escape after it if the two are a pair. -/
def unicodeEscape : Reader Char := hex4.bind fun n =>
  if isLowSurrogate n then .fail .malformed
  else if isHighSurrogate n then (lowSurrogate n).toTail
  else .ret (Char.ofNat n)

/-- Reads the digits of a numeric escape that nobody will see. -/
def looseUnicodeEscape : Reader Char := hex4.map fun _ => '\x00'

/-- The character that a letter after a backslash stands for. -/
def shortEscape? : Char → Option Char
  | '"' => some '"'
  | '\\' => some '\\'
  | '/' => some '/'
  | 'b' => some '\x08'
  | 'f' => some '\x0c'
  | 'n' => some '\n'
  | 'r' => some '\r'
  | 't' => some '\t'
  | _ => none

/-- Reads an escape after its backslash. -/
def escape (unicode : Reader Char) : Reader Char
  | [] => .error .truncated
  | c :: r =>
    if c = 'u' then afterHead c (unicode r)
    else match shortEscape? c with
      | some d => .ok (.ofHead d c r)
      | none => .error .malformed

/-! ## Strings -/

/-- Reads a character of a string, or its closing quote, which is none. -/
def stringItem (unicode : Reader Char) : Reader (Option Char)
  | [] => .error .truncated
  | c :: r =>
    if c = '"' then .ok (.ofHead none c r)
    else if c = '\\' then afterHead c ((escape unicode).map some r)
    else if c.toNat < 0x20 then .error .malformed
    else .ok (.ofHead (some c) c r)

/-- Reads a string after its opening quote. -/
def string : Reader String := Reader.map String.ofList (many (stringItem unicodeEscape))

/-- Reads a string after its opening quote, without a look at its surrogates. -/
def looseString : Reader Unit := Reader.map (fun _ => ()) (many (stringItem looseUnicodeEscape))

/-- Reads a key with its quotes. -/
def key : Reader String := (spaced (expect '"')).andThen fun _ => string

/-- Reads the colon after a key, and then a value. -/
def afterColon {α : Type} (value : Reader α) : Reader α :=
  (spaced (expect ':')).andThen fun _ => value

end PlayerText.Json
