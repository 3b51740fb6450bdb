import PlayerText.Proofs.Inline.Token
import PlayerText.Proofs.Text.Doubled

/-!
# Every text has an inline format

In an inline format a `%` takes the next character with it, and so two of them are one `%` that has
no meaning left. Written with each `%` doubled, a text is read as its characters alone, whatever is
written behind it.

* `literal`: a text with each `%` written twice.
* `tokens_doubled_append`: its tokens are its characters.
* `renderChars_doubled_append`: it puts in itself, and what follows it is rendered as it was.
* `render_literal`: the format of a text is rendered as the text.
-/

namespace PlayerText.Inline

open Clock Text

/-- The inline format of a text: each `%` is written twice, and all else stands as it is. -/
def literal (text : String) : String := String.ofList (doubled ['%'] text.toList)

section Tokens

variable {c : Char} {r : List Char}

theorem tokens_char (h : c ≠ '%') : tokens (c :: r) = .char c :: tokens r := by
  rw [tokens]
  · exact fun hc _ => absurd hc h
  · exact fun _ _ hc => absurd hc h

/-- Two `%` are one character. -/
theorem tokens_percents : tokens ('%' :: '%' :: r) = .char '%' :: tokens r := by
  rw [tokens]
  rfl

/-- With each `%` doubled, characters are the tokens of themselves. -/
theorem tokens_doubled_append (cs r : List Char) :
    tokens (doubled ['%'] cs ++ r) = cs.map .char ++ tokens r := by
  induction cs with
  | nil => rfl
  | cons c cs ih =>
    by_cases hc : c = '%'
    · subst hc
      rw [doubled_self, List.cons_append, List.cons_append, tokens_percents, ih]
      rfl
    · rw [doubled_of_ne hc, List.cons_append, tokens_char hc, ih]
      rfl

end Tokens

section Rendering

variable {ctx : Context} {now : Moment}

/-- Characters put in themselves. -/
theorem join_emit_chars (cs : List Char) :
    String.join ((cs.map Token.char).map (Token.emit ctx now)) = String.ofList cs := by
  induction cs with
  | nil => rfl
  | cons c cs ih =>
    rw [List.map_cons, List.map_cons, String.join_cons, ih, String.ofList_cons]
    rfl

/-- Behind a text with each `%` doubled, a format is rendered as it was. -/
theorem renderChars_doubled_append (cs r : List Char) :
    ctx.renderChars now (doubled ['%'] cs ++ r) = String.ofList cs ++ ctx.renderChars now r := by
  rw [renderChars_eq_join_emit, tokens_doubled_append, List.map_append, String.join_append,
    join_emit_chars, ← renderChars_eq_join_emit]

end Rendering

/-- With each `%` doubled, every text is an inline format of itself, whatever braces, directives and
runs of `%` it holds. -/
theorem render_literal (text : String) (ctx : Context) (now : Moment) :
    ctx.render now (literal text) = text := by
  have hnothing : ctx.renderChars now [] = "" := by rw [Context.renderChars]
  rw [Context.render, literal, String.toList_ofList, ← List.append_nil (doubled _ text.toList),
    renderChars_doubled_append, hnothing, String.append_empty, String.ofList_toList]

end PlayerText.Inline
