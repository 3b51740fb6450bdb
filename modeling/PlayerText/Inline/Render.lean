import PlayerText.Clock.Pattern
import PlayerText.Inline.Context
import PlayerText.Text.Group

/-!
# Inline formats

An inline format is read once from left to right, and each directive is replaced at once. Text that
a directive puts in is not read again.

`%f` and `%F` give the file name and its base name, `%s` one of two groups by the subtitles, `%d`
one of two groups or nothing by the track that is off, `%t` the moment by the pattern in a group,
and `%a`, `%b`, `%w` the beginning, the end and the position by the selector that follows. Any other
character after a `%` gives itself, and a `%` at the end gives nothing.

* `Context.renderChars`: the text of a format.
* `Context.render`: the same on strings.
-/

namespace PlayerText.Inline

open Clock Text

/-- The groups of `%s`: the first while subtitles are shown, else the second. -/
def chooseSubtitles (state : Subtitles) (shown hidden : List Char) : List Char :=
  match state with
  | .present => shown
  | .disabled => hidden

/-- The groups of `%d`: the first if the audio track is off, the second if the video track is. -/
def chooseDisabled (track : DisabledTrack) (audio video : List Char) : List Char :=
  match track with
  | .audio => audio
  | .video => video
  | .none => []

namespace Context

/-- The time that a directive names. -/
def time (ctx : Context) : Char → PlaybackTime
  | 'a' => .ofSeconds ctx.beginning
  | 'b' => .ofSeconds ctx.ending
  | _ => .ofSeconds ctx.position

/-- The text of a format at a moment. -/
def renderChars (ctx : Context) (now : Moment) : List Char → String
  | [] => ""
  | ['%'] => ""
  | '%' :: directive :: r =>
    match directive with
    | 'f' => ctx.fileName ++ ctx.renderChars now r
    | 'F' => baseName ctx.fileName ++ ctx.renderChars now r
    | 's' =>
      let args := groups 2 r
      have := length_groups_le 2 r
      String.ofList (chooseSubtitles ctx.subtitles (args.1 0) (args.1 1)) ++
        ctx.renderChars now args.2
    | 'd' =>
      let args := groups 2 r
      have := length_groups_le 2 r
      String.ofList (chooseDisabled ctx.disabled (args.1 0) (args.1 1)) ++
        ctx.renderChars now args.2
    | 't' =>
      let arg := group r
      have := length_group_le r
      now.format (String.ofList arg.1) ++ ctx.renderChars now arg.2
    | 'a' | 'b' | 'w' =>
      match r with
      | [] => ""
      | selector :: r => (ctx.time directive).select selector ++ ctx.renderChars now r
    | other => other.toString ++ ctx.renderChars now r
  | c :: r => c.toString ++ ctx.renderChars now r
termination_by cs => cs.length
decreasing_by all_goals simp only [List.length_cons]; omega

/-- The text of a format at a moment. -/
def render (ctx : Context) (now : Moment) (format : String) : String :=
  ctx.renderChars now format.toList

end Context

end PlayerText.Inline
