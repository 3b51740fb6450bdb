/-!
# The configured formats

* `Field`: the four texts that a user can configure, with their names in a file.
* `Configuration`: a format for each of them.
* `Configuration.ofFields`, `Configuration.get`: a configuration by its fields.
-/

namespace PlayerText

/-- A text that is shown by a configured format. -/
inductive Field where
  | windowTitle
  | nowPlaying
  | osdTime
  | screenshot
  deriving DecidableEq, Repr

namespace Field

/-- The fields in the order in which they are written. -/
def all : List Field := [.windowTitle, .nowPlaying, .osdTime, .screenshot]

/-- The name of a field in a file. -/
def name : Field → String
  | .windowTitle => "window_title_format"
  | .nowPlaying => "now_playing_format"
  | .osdTime => "osd_time_format"
  | .screenshot => "screenshot_format"

/-- The field with a name. -/
def ofName? (text : String) : Option Field := all.find? fun f => f.name == text

end Field

/-- The formats of a user. -/
structure Configuration where
  /-- The window title, a display format. -/
  windowTitle : String
  /-- The text about what is playing, a display format. -/
  nowPlaying : String
  /-- The time shown over the picture, an inline format. -/
  osdTime : String
  /-- The name of a screenshot without its extension, an inline format. -/
  screenshot : String
  deriving DecidableEq

namespace Configuration

/-- The format of a field. -/
def get (config : Configuration) : Field → String
  | .windowTitle => config.windowTitle
  | .nowPlaying => config.nowPlaying
  | .osdTime => config.osdTime
  | .screenshot => config.screenshot

/-- The configuration with a format for each field. -/
def ofFields (format : Field → String) : Configuration :=
  ⟨format .windowTitle, format .nowPlaying, format .osdTime, format .screenshot⟩

@[simp] theorem get_ofFields (format : Field → String) (f : Field) :
    (ofFields format).get f = format f := by cases f <;> rfl

@[simp] theorem ofFields_get (config : Configuration) : ofFields config.get = config := rfl

/-- The formats of a user who has configured nothing. -/
instance : Inhabited Configuration where
  default :=
    { windowTitle := "%title\x7b#\x7d\x7b$\x7d\x7b$\x7d"
      nowPlaying := "%title\x7b#\x7d\x7b$\x7d\x7b$\x7d%artist\x7b - #\x7d\x7b\x7d\x7b\x7d"
      osdTime := "%wp / %bp"
      screenshot := "%F %t\x7byyyy-MM-dd HH-mm-ss\x7d %wP" }

end Configuration

end PlayerText
