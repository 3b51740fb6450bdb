import PlayerText.Json.Value

/-!
# Skipped JSON values

The value of an unknown member is read only to find its end. It may be nested to any depth, its
numbers may have any magnitude and its strings any surrogates; a fault of a number counts as
malformed even where the text ends.

* `skipFrom`, `skipAfter`: the walk over a value, with the containers around the place.
* `skip`: reads one value.
-/

namespace PlayerText.Json

/-- The kind of a container. -/
inductive Container where
  | array
  | object
  deriving DecidableEq

/-- What closes a container. -/
def Container.close : Container → Char
  | .array => ']'
  | .object => '\x7d'

/-- Reads a value that is no container. -/
def skipScalar : Reader Unit := spaced fun
  | [] => .error .truncated
  | c :: r =>
    if c = 'n' then keyword () ['u', 'l', 'l'] r
    else if c = 't' then keyword () ['r', 'u', 'e'] r
    else if c = 'f' then keyword () ['a', 'l', 's', 'e'] r
    else if c = '"' then afterHead c (looseString r)
    else if c = '-' ∨ c.isDigit then looseNumber (c :: r)
    else .error .malformed

/-- Reads a key and its colon. -/
def skipKey : Reader Unit :=
  (spaced (expect '"')).andThen fun _ => looseString.andThen fun _ => spaced (expect ':')

/-- Reads the opening bracket of a container, if the text goes on with one. -/
def opens? (cs : List Char) : Option (Reading cs.length Container) :=
  match spaced (expect '[') cs, spaced (expect '\x7b') cs with
  | .ok bracket, _ => some (bracket.map fun _ => .array)
  | _, .ok brace => some (brace.map fun _ => .object)
  | _, _ => none

/-- Reads what comes before a value in a container: in an object a key. -/
def skipName : Container → Tail Unit
  | .array => .ret ()
  | .object => skipKey.toTail

mutual

/-- Reads a value and then up to the end of the outermost of the containers around it. -/
def skipFrom (around : List Container) (cs : List Char) :
    Except JsonFault (Reading cs.length Unit) :=
  match opens? cs with
  | none => do
    let scalar ← skipScalar cs
    have := scalar.shorter
    let done ← skipAfter around scalar.rest
    .ok (done.mono (by omega))
  | some opened =>
    have := opened.shorter
    match closes? opened.value.close opened.rest with
    | some closed => do
      have := closed.shorter
      let done ← skipAfter around closed.rest
      .ok (done.mono (by omega))
    | none => do
      let name ← skipName opened.value opened.rest
      have := name.shorter
      let done ← skipFrom (opened.value :: around) name.rest
      .ok (done.mono (by omega))
termination_by cs.length

/-- Reads up to the end of the outermost container, after one of the values of the innermost. -/
def skipAfter (around : List Container) (cs : List Char) :
    Except JsonFault (Reading (cs.length + 1) Unit) :=
  match around with
  | [] => .ok ⟨(), cs, by omega⟩
  | inner :: outer => do
    let mark ← separator inner.close cs
    have := mark.shorter
    if mark.value then
      let name ← skipName inner mark.rest
      have := name.shorter
      let done ← skipFrom (inner :: outer) name.rest
      .ok (done.mono (by omega))
    else
      let done ← skipAfter outer mark.rest
      .ok (done.mono (by omega))
termination_by cs.length

end

/-- Reads a value that nobody will see. -/
def skip : Reader Unit := skipFrom []

end PlayerText.Json
