import PlayerText.Inline.Render
import PlayerText.Proofs.Text.Group

/-!
# The tokens of an inline format

An inline format is a row of tokens that the format alone decides. What a token puts in is never
read: neither the file name nor the text of a group is searched for directives.

* `directive`, `tokens`: the token of a directive, and the tokens of a format.
* `Token.emit`: what a token puts in.
* `renderChars_char`, `renderChars_directive`: rendering takes one token at a time.
* `render_eq_join_emit`: a rendered format is what its tokens put in.
-/

namespace PlayerText.Inline

open Clock Number Text

/-- The times that a format can show. -/
inductive TimeMark where
  | beginning
  | ending
  | position
  deriving DecidableEq

/-- A part of an inline format. -/
inductive Token where
  /-- A character to show. -/
  | char (c : Char)
  /-- The file name as it is. -/
  | fileName
  /-- The file name without directories and its last extension. -/
  | baseName
  /-- The first group while subtitles are shown, else the second. -/
  | subtitles (shown hidden : List Char)
  /-- A group for either track that can be off. -/
  | disabled (audio video : List Char)
  /-- The moment by a pattern. -/
  | moment (pattern : List Char)
  /-- A time by a selector, which is missing at the end of the format. -/
  | time (mark : TimeMark) (selector : Option Char)
  deriving DecidableEq

/-- A time takes the next character as its selector, whatever it is. -/
def selected (mark : TimeMark) : List Char → Token × List Char
  | [] => (.time mark none, [])
  | selector :: r => (.time mark (some selector), r)

/-- The token of a directive, and the format behind it. -/
def directive (d : Char) (r : List Char) : Token × List Char :=
  match d with
  | 'f' => (.fileName, r)
  | 'F' => (.baseName, r)
  | 's' =>
    let shown := nextGroup r
    let hidden := nextGroup shown.2
    (.subtitles shown.1 hidden.1, hidden.2)
  | 'd' =>
    let audio := nextGroup r
    let video := nextGroup audio.2
    (.disabled audio.1 video.1, video.2)
  | 't' =>
    let pattern := nextGroup r
    (.moment pattern.1, pattern.2)
  | 'a' => selected .beginning r
  | 'b' => selected .ending r
  | 'w' => selected .position r
  | other => (.char other, r)

theorem length_selected_le (mark : TimeMark) (r : List Char) :
    (selected mark r).2.length ≤ r.length := by
  cases r with
  | nil => exact Nat.le_refl _
  | cons => exact Nat.le_succ _

theorem length_directive_le (d : Char) (r : List Char) :
    (directive d r).2.length ≤ r.length := by
  unfold directive
  split
  · exact Nat.le_refl _
  · exact Nat.le_refl _
  · exact (length_nextGroup_le _).trans (length_nextGroup_le _)
  · exact (length_nextGroup_le _).trans (length_nextGroup_le _)
  · exact length_nextGroup_le _
  · exact length_selected_le _ _
  · exact length_selected_le _ _
  · exact length_selected_le _ _
  · exact Nat.le_refl _

/-- The tokens of a format. A `%` at the end is none. -/
def tokens : List Char → List Token
  | [] => []
  | ['%'] => []
  | '%' :: d :: r => (directive d r).1 :: tokens (directive d r).2
  | c :: r => .char c :: tokens r
termination_by cs => cs.length
decreasing_by
  · have := length_directive_le d r
    simp only [List.length_cons]
    omega
  · simp only [List.length_cons]; omega

/-- The seconds of a time. -/
def TimeMark.seconds (ctx : Context) : TimeMark → Binary64
  | .beginning => ctx.beginning
  | .ending => ctx.ending
  | .position => ctx.position

/-- What a token puts in. -/
def Token.emit (ctx : Context) (now : Moment) : Token → String
  | .char c => String.singleton c
  | .fileName => ctx.fileName
  | .baseName => Inline.baseName ctx.fileName
  | .subtitles shown hidden =>
    match ctx.subtitles with
    | .present => String.ofList shown
    | .disabled => String.ofList hidden
  | .disabled audio video =>
    match ctx.disabled with
    | .audio => String.ofList audio
    | .video => String.ofList video
    | .none => ""
  | .moment pattern => now.format (String.ofList pattern)
  | .time mark (some selector) => (PlaybackTime.ofSeconds (mark.seconds ctx)).select selector
  | .time _ none => ""

section Rendering

variable {ctx : Context} {now : Moment}

theorem renderChars_char {c : Char} {r : List Char} (h : c ≠ '%') :
    ctx.renderChars now (c :: r) = String.singleton c ++ ctx.renderChars now r := by
  rw [Context.renderChars]
  · rfl
  · exact fun hc _ => absurd hc h
  · exact fun _ _ hc => absurd hc h

theorem emit_subtitles (shown hidden : List Char) :
    (Token.subtitles shown hidden).emit ctx now =
      String.ofList (chooseSubtitles ctx.subtitles shown hidden) := by
  unfold Token.emit chooseSubtitles
  cases ctx.subtitles <;> rfl

theorem emit_disabled (audio video : List Char) :
    (Token.disabled audio video).emit ctx now =
      String.ofList (chooseDisabled ctx.disabled audio video) := by
  unfold Token.emit chooseDisabled
  cases ctx.disabled <;> rfl

theorem renderChars_selected {d : Char} {mark : TimeMark} (hd : d = 'a' ∨ d = 'b' ∨ d = 'w')
    (hmark : ctx.time d = .ofSeconds (mark.seconds ctx)) (r : List Char) :
    ctx.renderChars now ('%' :: d :: r) =
      (selected mark r).1.emit ctx now ++ ctx.renderChars now (selected mark r).2 := by
  cases r with
  | nil =>
    have hnil : ctx.renderChars now ['%', d] = "" := by
      rcases hd with rfl | rfl | rfl <;> rw [Context.renderChars]
    rw [hnil, selected, Context.renderChars]
    rfl
  | cons selector r =>
    have hcons : ctx.renderChars now ('%' :: d :: selector :: r) =
        (ctx.time d).select selector ++ ctx.renderChars now r := by
      rcases hd with rfl | rfl | rfl <;> rw [Context.renderChars]
    rw [hcons, hmark]
    rfl

/-- One directive is one token. -/
theorem renderChars_directive (d : Char) (r : List Char) :
    ctx.renderChars now ('%' :: d :: r) =
      (directive d r).1.emit ctx now ++ ctx.renderChars now (directive d r).2 := by
  unfold directive
  split
  · rw [Context.renderChars]; rfl
  · rw [Context.renderChars]; rfl
  · simp only [nextGroup_eq_group, emit_subtitles]
    rw [Context.renderChars]
    rfl
  · simp only [nextGroup_eq_group, emit_disabled]
    rw [Context.renderChars]
    rfl
  · simp only [nextGroup_eq_group]
    rw [Context.renderChars]
    rfl
  · exact renderChars_selected (.inl rfl) (by rfl) r
  · exact renderChars_selected (.inr (.inl rfl)) (by rfl) r
  · exact renderChars_selected (.inr (.inr rfl)) (by rfl) r
  · rw [Context.renderChars]
    · rfl
    all_goals assumption

theorem renderChars_eq_join_emit (cs : List Char) :
    ctx.renderChars now cs = String.join ((tokens cs).map (Token.emit ctx now)) := by
  fun_induction tokens cs with
  | case1 => rw [Context.renderChars]; rfl
  | case2 => rw [Context.renderChars]; rfl
  | case3 d r ih => rw [renderChars_directive, ih, List.map_cons, String.join_cons]
  | case4 c r hlone hdirective ih =>
    have hc : c ≠ '%' := by
      rintro rfl
      cases r with
      | nil => exact hlone rfl rfl
      | cons d r => exact hdirective d r rfl rfl
    rw [renderChars_char hc, ih, List.map_cons, String.join_cons]
    rfl

end Rendering

/-- A rendered format is what its tokens put in, one after the other. -/
theorem render_eq_join_emit (format : String) (ctx : Context) (now : Moment) :
    ctx.render now format = String.join ((tokens format.toList).map (Token.emit ctx now)) :=
  renderChars_eq_join_emit format.toList

end PlayerText.Inline
