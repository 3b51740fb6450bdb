import PlayerText.Json.Value
import PlayerText.Media

/-!
# Enumerations as JSON

A variant is written as its name in a string, or as an object whose one member has the name as its
key and null as its value. The name has to be exact.

* `Named.read`: the variant in a JSON text.
* `Named.write`: the variant as a JSON text.
-/

namespace PlayerText.Named

open Json

variable {α : Type} [Named α]

/-- Reads a key, or any other string, that has to be a variant's name. -/
def nameReader : Reader α := key.bind fun text =>
  match (ofName? text : Option α) with
  | some v => .ret v
  | none => .fail .mismatched

/-- Reads the object form after its opening brace. -/
def objectReader : Reader α :=
  nameReader.andThen fun v => (afterColon nullValue).andThen fun _ =>
    (spaced (expect '\x7d')).map fun _ => v

/-- Reads a variant. -/
def reader : Reader α := spaced fun
  | [] => .error .truncated
  | c :: r =>
    if c = '\x7b' then afterHead c (objectReader r)
    else if c = '"' then nameReader (c :: r)
    else .error .malformed

/-- The variant in a JSON text. -/
def read (text : String) : Except JsonFault α := readAll reader text

/-- A variant as a JSON text. -/
def write (v : α) : String := quote (name v)

end PlayerText.Named
