import PlayerText.Proofs.Clock.Rendering

/-!
# When hours are of a twelve-hour clock

Whether a pattern shows before or after noon is found out by a scan of its own, which knows nothing
of tokens: it changes sides at every quote. A doubled quote changes sides twice, outside a quoted
section as well as inside, and so the scan is outside quotes wherever rendering begins a token.

* `hasMeridiemFrom_plain`, `hasMeridiemFrom_inside`, `hasMeridiemFrom_doubled`: what the scan passes
  over.
* `hasMeridiem_spelling`: a token counts if it is a marker, whatever it is spelled with.
* `hasMeridiem_eq_any`: the scan finds a marker where the tokens have one.
* `Token.text_meridiem`, `Token.text_hour`: what markers and hours show.
* `hasMeridiem_iff_exists_marker`: hours are of a twelve-hour clock exactly when rendering shows a
  marker.
-/

namespace PlayerText.Clock

open Text

/-- Whether a token is a marker for before or after noon. -/
def Token.isMeridiem : Token → Bool
  | .meridiem .. => true
  | _ => false

section Scan

variable {c : Char} {inQuotes : Bool} {rest : List Char}

/-- A quote changes sides. -/
theorem hasMeridiemFrom_quote : hasMeridiemFrom inQuotes ('\'' :: rest) =
    hasMeridiemFrom (!inQuotes) rest := by
  rw [hasMeridiemFrom]

theorem hasMeridiemFrom_cons (hc : c ≠ '\'') : hasMeridiemFrom inQuotes (c :: rest) =
    ((!inQuotes && (c == 'a' || c == 'A')) || hasMeridiemFrom inQuotes rest) := by
  rw [hasMeridiemFrom]
  exact fun h => absurd h hc

/-- Inside quotes only a quote counts. -/
theorem hasMeridiemFrom_inside (hc : c ≠ '\'') :
    hasMeridiemFrom true (c :: rest) = hasMeridiemFrom true rest := by
  rw [hasMeridiemFrom_cons hc, Bool.not_true, Bool.false_and, Bool.false_or]

/-- What is neither a quote nor the letter of a marker is passed over on both sides. -/
theorem hasMeridiemFrom_plain (hc : c ∉ ['A', 'a', '\'']) :
    hasMeridiemFrom inQuotes (c :: rest) = hasMeridiemFrom inQuotes rest := by
  simp only [List.mem_cons, List.not_mem_nil, or_false, not_or] at hc
  obtain ⟨hupper, hlower, hquote⟩ := hc
  rw [hasMeridiemFrom_cons hquote, beq_false_of_ne hupper, beq_false_of_ne hlower, Bool.or_false,
    Bool.and_false, Bool.false_or]

theorem hasMeridiemFrom_replicate (hc : c ∉ ['A', 'a', '\'']) (n : Nat) :
    hasMeridiemFrom inQuotes (List.replicate n c ++ rest) = hasMeridiemFrom inQuotes rest := by
  induction n with
  | zero => rfl
  | succ n ih => rw [List.replicate_succ, List.cons_append, hasMeridiemFrom_plain hc, ih]

/-- The text of a quoted section is passed over: a doubled quote changes sides twice. -/
theorem hasMeridiemFrom_doubled (text : List Char) :
    hasMeridiemFrom true (doubled ['\''] text ++ rest) = hasMeridiemFrom true rest := by
  induction text with
  | nil => rfl
  | cons c text ih =>
    by_cases hc : c = '\''
    · subst hc
      rw [doubled_self, List.cons_append, List.cons_append, hasMeridiemFrom_quote,
        hasMeridiemFrom_quote, Bool.not_not, ih]
    · rw [doubled_of_ne hc, List.cons_append, hasMeridiemFrom_inside hc, ih]

/-- A token counts if it is a marker, and after it the scan is outside quotes again. -/
theorem hasMeridiem_spelling {tok : Token} (h : tok.Longest rest) :
    hasMeridiem (tok.spelling ++ rest) = (tok.isMeridiem || hasMeridiem rest) := by
  unfold hasMeridiem
  cases tok with
  | field f => exact hasMeridiemFrom_replicate f.part.letter_not_mem f.width
  | meridiem upper second fits =>
    have hletter : (if upper then 'A' else 'a') ≠ '\'' := by cases upper <;> decide
    rw [Token.spelling, List.cons_append, hasMeridiemFrom_cons hletter]
    cases upper <;> rfl
  | quote =>
    rw [Token.spelling, List.cons_append, List.cons_append, hasMeridiemFrom_quote,
      hasMeridiemFrom_quote]
    rfl
  | quoted text closed opens holds =>
    rw [Token.spelling, List.cons_append, List.append_assoc, hasMeridiemFrom_quote, Bool.not_false,
      hasMeridiemFrom_doubled]
    cases closed with
    | true => exact hasMeridiemFrom_quote
    | false =>
      -- Inside quotes the scan ends differently, but nothing follows a section that is not closed.
      obtain rfl := h.eq_nil_of_open
      rfl
  | char c plain =>
    have hc : c ∉ ['A', 'a', '\''] := fun hmem => plain (by simp_all [marks])
    exact hasMeridiemFrom_plain hc

/-- The scan finds a marker where the tokens have one. -/
theorem hasMeridiem_eq_any {cs : List Char} {toks : List Token} (h : Tokenization cs toks) :
    hasMeridiem cs = toks.any Token.isMeridiem := by
  induction h with
  | nil => rfl
  | cons hlongest _ ih => rw [hasMeridiem_spelling hlongest, ih, List.any_cons]

end Scan

theorem Token.isMeridiem_iff {tok : Token} :
    tok.isMeridiem = true ↔ ∃ upper second fits, tok = .meridiem upper second fits := by
  constructor
  · intro h
    cases tok with
    | meridiem upper second fits => exact ⟨upper, second, fits, rfl⟩
    | _ => cases h
  · rintro ⟨_, _, _, rfl⟩
    rfl

/-- From any of its tokens on, a pattern has the tokens that are left. -/
theorem Tokenization.drop {cs : List Char} {toks : List Token} (h : Tokenization cs toks)
    (n : Nat) : Tokenization ((toks.drop n).flatMap Token.spelling) (toks.drop n) := by
  induction h generalizing n with
  | nil => rw [List.drop_nil]; exact .nil
  | @cons tok rest toks hlongest htoks ih =>
    cases n with
    | zero =>
      have hspelled := htoks.flatMap_spelling
      rw [List.drop_zero, List.flatMap_cons, hspelled]
      exact .cons hlongest htoks
    | succ n => exact ih n

/-- A marker says by its case and by the hour whether it is before or after noon. -/
theorem Token.text_meridiem (m : Moment) (twelveHour upper : Bool) (second : Option Char)
    (fits : ∀ c ∈ second, c = 'P' ∨ c = 'p') :
    Token.text m twelveHour (.meridiem upper second fits) =
      if upper then if 12 ≤ m.time.hour then "PM" else "AM"
      else if 12 ≤ m.time.hour then "pm" else "am" := by
  rw [Token.text]
  by_cases hnoon : 12 ≤ m.time.hour <;> cases upper <;>
    simp [Moment.meridiem, TimeOfDay.isAfternoon, hnoon]

/-- An hour is shown as on a clock of twelve hours, where it runs from 1 to 12, or of a day. -/
theorem Token.text_hour (m : Moment) (twelveHour : Bool) {f : DateField} (hf : f.part = .hour) :
    Token.text m twelveHour (.field f) = oneOrTwo f.width
      (if twelveHour then if m.time.hour % 12 = 0 then 12 else m.time.hour % 12
        else m.time.hour) := by
  rw [Token.text, hf, Part.text, TimeOfDay.hour12]

/-- The scan and the rendering agree on markers. A pattern is rendered token by token, from each of
its tokens on to the end, a marker as `AM` or `PM`, `am` or `pm`. The scan finds one exactly when
one of these tokens is a marker; so hours are of a twelve-hour clock exactly when a marker is
shown. -/
theorem hasMeridiem_iff_exists_marker (pattern : String) :
    ∃ toks, (∀ others, Tokenization pattern.toList others ↔ others = toks) ∧
      toks.flatMap Token.spelling = pattern.toList ∧
      (∀ (m : Moment) (twelveHour : Bool) (n : Nat),
        m.render twelveHour ((toks.drop n).flatMap Token.spelling) =
          String.join ((toks.drop n).map (Token.text m twelveHour))) ∧
      (∀ (m : Moment) (twelveHour upper : Bool) (second : Option Char) fits,
        Token.text m twelveHour (.meridiem upper second fits) =
          if upper then if 12 ≤ m.time.hour then "PM" else "AM"
          else if 12 ≤ m.time.hour then "pm" else "am") ∧
      (hasMeridiem pattern.toList = true ↔
        ∃ upper second fits, .meridiem upper second fits ∈ toks) ∧
      (∀ m : Moment, m.format pattern =
        String.join (toks.map (Token.text m (toks.any Token.isMeridiem)))) ∧
      ∀ (m : Moment) (f : DateField), f.part = .hour →
        Token.text m (toks.any Token.isMeridiem) (.field f) = oneOrTwo f.width
          (if hasMeridiem pattern.toList then
            if m.time.hour % 12 = 0 then 12 else m.time.hour % 12
          else m.time.hour) := by
  obtain ⟨toks, htoks⟩ := exists_tokenization pattern.toList
  have hscan : hasMeridiem pattern.toList = toks.any Token.isMeridiem := hasMeridiem_eq_any htoks
  refine ⟨toks, fun others => ⟨htoks.unique, ?_⟩, htoks.flatMap_spelling,
    fun m twelveHour n => render_eq_join (htoks.drop n), Token.text_meridiem, ?_, fun m => ?_,
    fun m f hf => ?_⟩
  · rintro rfl
    exact htoks
  · rw [hscan, List.any_eq_true]
    constructor
    · rintro ⟨tok, hmem, hmarker⟩
      obtain ⟨upper, second, fits, rfl⟩ := Token.isMeridiem_iff.mp hmarker
      exact ⟨upper, second, fits, hmem⟩
    · rintro ⟨upper, second, fits, hmem⟩
      exact ⟨_, hmem, rfl⟩
  · rw [Moment.format, hscan]
    exact render_eq_join htoks
  · rw [hscan]
    exact Token.text_hour m _ hf

/-- Quotes that are doubled inside a section and outside, and a section that is never closed. -/
example : hasMeridiem "'it''s a' h''a".toList = true ∧ hasMeridiem "h'''a'' A".toList = false := by
  decide

end PlayerText.Clock
