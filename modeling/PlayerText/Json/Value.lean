import PlayerText.Json.Number
import PlayerText.Json.Text

/-!
# JSON values

* `Value`: any JSON value. An object keeps its members in the order of the text.
* `value depth`: reads a value with at most `depth` containers around one another.
* `Value.parse`: a whole text, with at most 127.
* `unexpected`: the fault of a value that is not of the type that is read.
-/

namespace PlayerText.Json

/-- A JSON value. -/
inductive Value where
  | null
  | bool (value : Bool)
  | number (value : Number)
  | string (value : String)
  | array (items : List Value)
  | object (members : List (String × Value))

/-- Reads a value by its first character, containers by the two readers. -/
def valueBy (array : Reader (List Value)) (object : Reader (List (String × Value))) :
    Reader Value := spaced fun
  | [] => .error .truncated
  | c :: r =>
    if c = 'n' then keyword .null ['u', 'l', 'l'] r
    else if c = 't' then keyword (.bool true) ['r', 'u', 'e'] r
    else if c = 'f' then keyword (.bool false) ['a', 'l', 's', 'e'] r
    else if c = '"' then afterHead c (string.map .string r)
    else if c = '-' ∨ c.isDigit then number.map .number (c :: r)
    else if c = '[' then afterHead c (array.map .array r)
    else if c = '\x7b' then afterHead c (object.map .object r)
    else .error .malformed

/-- Reads the value of a member and puts the member after those before it. -/
def memberOf (value : Reader Value) (before : List (String × Value)) (name : String) :
    Reader (List (String × Value)) :=
  afterColon (value.map fun v => before ++ [(name, v)])

/-- Reads a value with at most `depth` containers around one another. -/
def value : (depth : Nat) → Reader Value
  | 0 => valueBy (fun _ => .error .malformed) (fun _ => .error .malformed)
  | depth + 1 => valueBy (array (value depth)) (object key (memberOf (value depth)) [])

/-- How many containers may stand around one another. -/
def maxDepth : Nat := 127

/-- The value of a text. -/
def Value.parse (text : String) : Except JsonFault Value := readAll (value maxDepth) text

/-! ## Values of one type -/

/-- The fault of a text that does not go on with a value of the wanted type. A scalar is read to its
end, and its own fault comes first; of a container the bracket is enough. -/
def unexpected (cs : List Char) : JsonFault :=
  match valueBy (fun _ => .error .mismatched) (fun _ => .error .mismatched) cs with
  | .ok _ => .mismatched
  | .error fault => fault

/-- Reads a value that has to be a string. -/
def stringValue : Reader String := spaced fun cs =>
  if cs.head? = some '"' then (expect '"').andThen (fun _ => string) cs
  else .error (unexpected cs)

/-- Reads a value that has to be null. -/
def nullValue : Reader Unit := spaced fun cs =>
  if cs.head? = some 'n' then (expect 'n').bind (fun _ => keyword () ['u', 'l', 'l']) cs
  else .error (unexpected cs)

end PlayerText.Json
