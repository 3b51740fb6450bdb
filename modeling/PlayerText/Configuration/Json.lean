import PlayerText.Configuration.Basic
import PlayerText.Json.Skip

/-!
# Configurations as JSON

A configuration is an object with the fields as members; a field that is missing has its default,
and members that are no fields are skipped. An array of at most four strings, in the order of the
fields, will do as well.

* `Configuration.write`: the object with one member a line.
* `Configuration.read`: the configuration in a JSON text.
-/

namespace PlayerText.Configuration

open Json

/-! ## Writing -/

/-- The line of a field. -/
def writeField (config : Configuration) (f : Field) : String :=
  "  " ++ quote f.name ++ ": " ++ quote (config.get f)

/-- A configuration as a JSON text. -/
def write (config : Configuration) : String :=
  "\x7b\n" ++ ",\n".intercalate (Field.all.map config.writeField) ++ "\n\x7d"

/-! ## Reading -/

/-- The formats that a text gives, for some of the fields. -/
abbrev Given := Field → Option String

/-- The formats given so far and one more. -/
def give (given : Given) (f : Field) (format : String) : Given :=
  fun g => if g = f then some format else given g

/-- The configuration with the given formats, and defaults for the rest. -/
def ofGiven (given : Given) : Configuration :=
  ofFields fun f => (given f).getD ((default : Configuration).get f)

/-- Reads what follows a key. A field must not come twice. -/
def readMember (given : Given) (name : String) : Reader Given :=
  match Field.ofName? name with
  | none => afterColon (skip.map fun _ => given)
  | some f =>
    if (given f).isSome then fun _ => .error .mismatched
    else afterColon (stringValue.map (give given f))

/-- The formats of an array, in the order of the fields. -/
def ofItems (formats : List String) : Given := fun f =>
  ((Field.all.zip formats).find? fun p => p.1 = f).map (·.2)

/-- Reads a configuration. -/
def reader : Reader Configuration := spaced fun cs =>
  if cs.head? = some '\x7b' then
    (expect '\x7b').andThen
      (fun _ => (object key readMember fun _ => none).map ofGiven) cs
  else if cs.head? = some '[' then
    (expect '[').andThen
      (fun _ => (itemsUpTo 3 stringValue).map fun formats => ofGiven (ofItems formats)) cs
  else .error (unexpected cs)

/-- The configuration in a JSON text. -/
def read (text : String) : Except JsonFault Configuration := readAll reader text

end PlayerText.Configuration
