import PlayerText.Error
import PlayerText.Text.Blank

/-!
# The state of the item that is playing

Three small enumerations, each with a name for every variant and a default.

* `Named.parse`: the variant whose name a text is, blanks around it and ASCII case aside.
* `Named.ofName?`: the variant with exactly this name.
* `mem_variants`: the list of variants leaves none out.
-/

namespace PlayerText

/-- What kind of medium the item is. -/
inductive Medium where
  | audio
  | video
  deriving DecidableEq, Repr

/-- Which track is switched off. -/
inductive DisabledTrack where
  | none
  | audio
  | video
  deriving DecidableEq, Repr

/-- Whether subtitles are shown. -/
inductive Subtitles where
  | present
  | disabled
  deriving DecidableEq, Repr

/-- An item is a video until told otherwise. -/
instance : Inhabited Medium := ⟨.video⟩

/-- No track is switched off until told otherwise. -/
instance : Inhabited DisabledTrack := ⟨.none⟩

/-- Subtitles are shown until told otherwise. -/
instance : Inhabited Subtitles := ⟨.present⟩

/-- An enumeration whose variants have names. -/
class Named (α : Type) where
  /-- Every variant, in the order of declaration. -/
  variants : List α
  /-- The name of a variant. -/
  name : α → String

instance : Named Medium where
  variants := [.audio, .video]
  name
    | .audio => "Audio"
    | .video => "Video"

instance : Named DisabledTrack where
  variants := [.none, .audio, .video]
  name
    | .none => "None"
    | .audio => "Audio"
    | .video => "Video"

instance : Named Subtitles where
  variants := [.present, .disabled]
  name
    | .present => "Present"
    | .disabled => "Disabled"

theorem Medium.mem_variants (t : Medium) : t ∈ (Named.variants : List Medium) := by
  cases t <;> decide

theorem DisabledTrack.mem_variants (t : DisabledTrack) :
    t ∈ (Named.variants : List DisabledTrack) := by
  cases t <;> decide

theorem Subtitles.mem_variants (s : Subtitles) :
    s ∈ (Named.variants : List Subtitles) := by
  cases s <;> decide

/-- Whether two texts differ at most in the case of ASCII letters. -/
def sameIgnoringCase (a b : String) : Bool :=
  a.toList.map Char.toLower == b.toList.map Char.toLower

namespace Named

variable {α : Type} [Named α]

/-- The variant with exactly this name. -/
def ofName? (text : String) : Option α :=
  variants.find? fun v => name v == text

/-- The variant that a user's text names. Blanks around the name and the case of ASCII letters do
not matter; an error keeps the text as it was given. -/
def parse (text : String) : Except Error α :=
  let trimmed := String.ofList (Text.trim text.toList)
  match variants.find? fun v => sameIgnoringCase (name v) trimmed with
  | some v => .ok v
  | none => .error (.invalidValue text)

end Named

end PlayerText
