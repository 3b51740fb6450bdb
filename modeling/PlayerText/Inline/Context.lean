import PlayerText.Media
import PlayerText.Playback.Time

/-!
# What an inline format can show

* `Context`: the file name, the tracks and the three times of the item that is playing.
* `baseName`: a file name without its directories and its last extension.
-/

namespace PlayerText.Inline

open Number

/-- The state of the player when an inline text is made. -/
structure Context where
  /-- The file name, with directories or without. -/
  fileName : String
  /-- The track that is switched off. -/
  disabled : DisabledTrack := default
  /-- Whether subtitles are shown. -/
  subtitles : Subtitles := default
  /-- The position in the item, in seconds. -/
  position : Binary64 := ⟨0⟩
  /-- Where playing begins, in seconds. -/
  beginning : Binary64 := ⟨0⟩
  /-- Where playing ends, in seconds. -/
  ending : Binary64 := ⟨0⟩
  deriving DecidableEq

/-- The text after the last slash. -/
def lastPart (name : List Char) : List Char := (name.reverse.takeWhile (· != '/')).reverse

/-- The text before the last dot; all of it if there is no dot. -/
def beforeLastDot (name : List Char) : List Char :=
  if '.' ∈ name then ((name.reverse.dropWhile (· != '.')).drop 1).reverse else name

/-- A file name without directories and without its last extension. -/
def baseName (fileName : String) : String :=
  String.ofList (beforeLastDot (lastPart fileName.toList))

end PlayerText.Inline
