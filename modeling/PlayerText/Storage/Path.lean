import PlayerText.Error

/-!
# Paths

A path is a text whose parts are separated by slashes. It starts at the root; empty parts and `.`
stay where they are, and `..` goes back up. The empty text names nothing, not even the root.

* `join`: a path below another one, as text. Nothing is normalized.
* `Path.ofText`: the parts of a path, which is not empty and has a greatest length.
* `Path.names`: the parts that go somewhere.
-/

namespace PlayerText.Storage

/-- Whether a path starts at the root. -/
def isAbsolute (path : String) : Bool := path.toList.head? == some '/'

/-- The path of `name` seen from `base`: with one slash between them, or `name` itself if it starts
at the root. -/
def join (base name : String) : String :=
  if isAbsolute name then name
  else if base.toList.getLast?.all (· == '/') then base ++ name
  else base ++ "/" ++ name

/-- The parts between the slashes of a text, of which there is always one. -/
def splitParts : List Char → List (List Char)
  | [] => [[]]
  | c :: r =>
    if c = '/' then [] :: splitParts r
    else match splitParts r with
      | [] => [[c]]
      | part :: parts => (c :: part) :: parts

/-- The parts of a path in their order. -/
abbrev Path := List String

namespace Path

/-- How many bytes a path may have. -/
def maxLength : Nat := 4095

/-- The parts of a path. The character U+0000 cannot be in a path, and nothing stands at the empty
one. -/
def ofText (text : String) : Except IoError Path :=
  if text = "" then .error .notFound
  else if '\x00' ∈ text.toList then .error .nulInPath
  else if maxLength < text.utf8ByteSize then .error .nameTooLong
  else .ok ((splitParts text.toList).map String.ofList)

/-- Whether a part stays where it is. -/
def isIdle (part : String) : Bool := part == "" || part == "."

/-- The parts that go somewhere. -/
def names (path : Path) : Path := path.filter (!isIdle ·)

end Path

end PlayerText.Storage
