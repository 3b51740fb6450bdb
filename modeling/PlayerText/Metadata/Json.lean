import PlayerText.Json.Value
import PlayerText.Metadata

/-!
# Metadata as JSON

* `Metadata.ofJson`: the metadata in any JSON value.
* `Metadata.ofJsonText`: the same from a text.
* `Metadata.read`: reads an object of strings, and nothing else.
* `Metadata.write`: the object of strings, its keys in order.
-/

namespace PlayerText

open Json

/-- A value as the text of a key. What has no text of its own is empty. -/
def Json.Value.text : Value → String
  | .string s => s
  | .number n => n.text
  | .bool true => "true"
  | .bool false => "false"
  | .null | .array _ | .object _ => ""

namespace Metadata

/-- The members of an object, each with the text of its value; a value that is no object has
none. -/
def ofJson : Value → Metadata
  | .object members => ofPairs (members.map fun m => (m.1, m.2.text))
  | _ => empty

/-- The metadata in a JSON text. -/
def ofJsonText (text : String) : Except JsonFault Metadata := (Value.parse text).map ofJson

/-- Reads the string of a member and puts it under the member's key. -/
def readMember (before : Metadata) (name : String) : Reader Metadata :=
  afterColon (stringValue.map (before.set name))

/-- Reads an object of strings. -/
def reader : Reader Metadata := spaced fun cs =>
  if cs.head? = some '\x7b' then
    (expect '\x7b').andThen (fun _ => object key readMember empty) cs
  else .error (unexpected cs)

/-- The metadata in a JSON text that is an object of strings. -/
def read (text : String) : Except JsonFault Metadata := readAll reader text

/-- A member as it is written. -/
def writeMember (p : String × String) : String := quote p.1 ++ ":" ++ quote p.2

/-- The metadata as a JSON text without spaces. -/
def write (m : Metadata) : String :=
  "\x7b" ++ ",".intercalate (m.toPairs.map writeMember) ++ "\x7d"

end Metadata

end PlayerText
