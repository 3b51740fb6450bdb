import PlayerText.Configuration.Basic
import PlayerText.Display.LiveTree
import PlayerText.Inline.Render

/-!
# Formatting by a configuration

A formatter holds a configuration and the trees of its two display formats, and makes the four texts
of a player.

* `Formatter.ofConfiguration`, `Formatter.reconfigure`: a new formatter, and one with another
  configuration.
* `Formatter.windowTitle`, `Formatter.nowPlaying`, `Formatter.osdTime`,
  `Formatter.screenshotName`: the four texts.
-/

namespace PlayerText

open Display

/-- A configuration, ready for use. -/
structure Formatter where
  /-- The configuration in force. -/
  configuration : Configuration
  /-- The tree of the window title. -/
  windowTitleTree : LiveTree
  /-- The tree of the text about what is playing. -/
  nowPlayingTree : LiveTree
  deriving DecidableEq

namespace Formatter

/-- A formatter for a configuration. -/
def ofConfiguration (c : Configuration) : Formatter :=
  ⟨c, LiveTree.ofFormat c.windowTitle, LiveTree.ofFormat c.nowPlaying⟩

/-- A formatter for the default configuration. -/
instance : Inhabited Formatter := ⟨ofConfiguration default⟩

/-- Puts another configuration in force. Only a display format that has changed is compiled. -/
def reconfigure (f : Formatter) (c : Configuration) : Formatter where
  configuration := c
  windowTitleTree :=
    if c.windowTitle = f.configuration.windowTitle then f.windowTitleTree
    else f.windowTitleTree.replace c.windowTitle
  nowPlayingTree :=
    if c.nowPlaying = f.configuration.nowPlaying then f.nowPlayingTree
    else f.nowPlayingTree.replace c.nowPlaying

/-- The window title for an item. -/
def windowTitle (f : Formatter) (metadata : Metadata) (displayName : String) (medium : Medium) :
    String :=
  f.windowTitleTree.evaluate metadata displayName medium

/-- The text about the item that is playing. -/
def nowPlaying (f : Formatter) (metadata : Metadata) (displayName : String) (medium : Medium) :
    String :=
  f.nowPlayingTree.evaluate metadata displayName medium

/-- The time to show over the picture. -/
def osdTime (f : Formatter) (ctx : Inline.Context) (now : Clock.Moment) : String :=
  ctx.render now f.configuration.osdTime

/-- The name of a screenshot without its extension. -/
def screenshotName (f : Formatter) (ctx : Inline.Context) (now : Clock.Moment) : String :=
  ctx.render now f.configuration.screenshot

end Formatter

end PlayerText
