import PlayerText.Proofs.Clock.Rendering

/-!
# Every text has a pattern

A text is written as a pattern by putting it in quotes and doubling the quotes in it. If the text
begins with quotes, the pattern begins with a longer run of them, which is read in pairs outside any
quoted section; the last quote of the run is the one that opens the section. A text of quotes alone
never opens a section, and is written as twice as many quotes, with none around them.

* `inQuotes`: a text in quotes, each quote in it doubled.
* `exists_quotes_append`: the quotes that a text begins with.
* `render_quotes`, `render_section`: pairs of quotes, and a section that closes with the pattern.
* `format_literal`: the pattern of a text shows the text.
-/

namespace PlayerText.Clock

open Text

/-- A text in quotes, with each quote in it doubled. -/
def inQuotes (text : String) : String :=
  String.ofList ('\'' :: (doubled ['\''] text.toList ++ ['\'']))

/-- A text of quotes. -/
def quotes (n : Nat) : String := String.ofList (List.replicate n '\'')

/-- A text that holds another character than a quote begins with a run of quotes, maybe empty, and
such a character behind it. -/
theorem exists_quotes_append {cs : List Char} (h : ∃ c ∈ cs, c ≠ '\'') :
    ∃ n c r, c ≠ '\'' ∧ cs = List.replicate n '\'' ++ c :: r := by
  induction cs with
  | nil => simp at h
  | cons c cs ih =>
    by_cases hc : c = '\''
    · subst hc
      have htail : ∃ c ∈ cs, c ≠ '\'' := by simpa using h
      obtain ⟨n, d, r, hd, rfl⟩ := ih htail
      exact ⟨n + 1, d, r, hd, rfl⟩
    · exact ⟨0, c, cs, hc, rfl⟩

section Rendering

variable {m : Moment} {twelveHour : Bool} {c : Char} {r : List Char}

/-- Outside quoted sections, quotes are read in pairs. -/
theorem render_quotes (n : Nat) (rest : List Char) :
    m.render twelveHour (List.replicate (2 * n) '\'' ++ rest) =
      quotes n ++ m.render twelveHour rest := by
  induction n with
  | zero => exact (String.empty_append).symm
  | succ n ih =>
    have hpair : List.replicate (2 * (n + 1)) '\'' ++ rest =
        '\'' :: '\'' :: (List.replicate (2 * n) '\'' ++ rest) := rfl
    have hquotes : quotes (n + 1) = "'" ++ quotes n := String.ofList_cons
    rw [hpair, Moment.render, ih, hquotes, String.append_assoc]

/-- A section that closes with the pattern shows its text. -/
theorem render_section (hc : c ≠ '\'') :
    m.render twelveHour ('\'' :: (doubled ['\''] (c :: r) ++ ['\''])) = String.ofList (c :: r) := by
  have hopens : (doubled ['\''] (c :: r) ++ ['\'']).head? ≠ some '\'' := by
    rw [head?_doubled_append (List.cons_ne_nil c r)]
    simpa using hc
  rw [render_quoted hopens, quoted_closed (by simp), Moment.render_nil, String.append_empty]

/-- In front of a section the quotes of its text are read in pairs, for the quote that opens the
section is the last one of the run. -/
theorem render_inQuotes {cs : List Char} (h : ∃ c ∈ cs, c ≠ '\'') :
    m.render twelveHour ('\'' :: (doubled ['\''] cs ++ ['\''])) = String.ofList cs := by
  obtain ⟨n, c, r, hc, rfl⟩ := exists_quotes_append h
  -- The quotes of the text and the one around it are all alike, so either may be called the first.
  have hopening : '\'' :: (doubled ['\''] (List.replicate n '\'' ++ c :: r) ++ ['\'']) =
      List.replicate (2 * n) '\'' ++ '\'' :: (doubled ['\''] (c :: r) ++ ['\'']) := by
    rw [doubled_append, doubled_replicate, List.append_assoc, ← List.cons_append,
      ← List.replicate_succ, List.replicate_succ', List.append_assoc]
    rfl
  rw [hopening, render_quotes, render_section hc, String.ofList_append]
  rfl

/-- A text of quotes is shown by twice as many. -/
theorem format_quotes (n : Nat) : m.format (quotes (2 * n)) = quotes n := by
  rw [Moment.format, quotes, String.toList_ofList, ← List.append_nil (List.replicate _ _),
    render_quotes, Moment.render_nil, String.append_empty]

end Rendering

/-- A text that holds another character than a quote is shown by the pattern in which it stands in
quotes, each quote in it doubled. A text of quotes alone is shown by twice as many quotes. -/
theorem format_literal (m : Moment) :
    (∀ text : String, (∃ c ∈ text.toList, c ≠ '\'') → m.format (inQuotes text) = text) ∧
      ∀ n, m.format (quotes (2 * n)) = quotes n := by
  refine ⟨fun text h => ?_, fun n => format_quotes n⟩
  rw [Moment.format, inQuotes, String.toList_ofList, render_inQuotes h, String.ofList_toList]

/-- A text with quotes at both ends and in the middle, and letters that would be fields. -/
theorem format_literal_quotes :
    let m : Moment := ⟨⟨2024, 3, 9, by decide, by decide⟩,
      ⟨14, 5, 7, 0, by decide, by decide, by decide, by decide⟩, .utc⟩
    (∃ c ∈ "''at h o'clock'".toList, c ≠ '\'') ∧
      inQuotes "''at h o'clock'" = "'''''at h o''clock'''" ∧
      m.format (inQuotes "''at h o'clock'") = "''at h o'clock'" := by
  have h : ∃ c ∈ "''at h o'clock'".toList, c ≠ '\'' := ⟨'a', by decide, by decide⟩
  exact ⟨h, by decide, (format_literal _).1 _ h⟩

/-- The empty text is no such case: in quotes it is a pair of quotes, which shows one. -/
example (m : Moment) : m.format (inQuotes "") = "'" := format_quotes 1

end PlayerText.Clock
