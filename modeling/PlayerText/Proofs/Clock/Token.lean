import Mathlib.Data.List.Basic
import PlayerText.Clock.Pattern
import PlayerText.Proofs.Text.Doubled

/-!
# The tokens of a date and time pattern

A pattern is read from left to right, and at each place the longest token counts that is spelled
there. The tokens are said by their spellings alone, without a word on how they are found.

* `Part`, `DateField`: the parts of a moment, each with a letter and the widths that its fields
  have.
* `Token`, `Token.spelling`: all tokens and how they are spelled; `spelling_inj`: no two tokens are
  spelled alike.
* `Token.Longest`: no longer token is spelled at the same place.
* `Tokenization`: the tokens of a pattern, each the longest at its place.
* `Tokenization.unique`, `exists_tokenization`: every pattern has one, and no other.
* `pattern_induction`: induction over patterns, a token at a time.
-/

namespace PlayerText.Clock

open Text

/-! ## Spelling -/

/-- A part of a moment that a run of one letter stands for. -/
inductive Part where
  | day
  | month
  | year
  /-- The hour, of a twelve-hour clock where the pattern asks for it. -/
  | hour
  /-- The hour of a day. -/
  | hour24
  | minute
  | second
  | millis
  | zone
  deriving DecidableEq

/-- The characters that are tokens by themselves, other than to be copied. A single `y` is
copied. -/
def marks : List Char := ['d', 'M', 'h', 'H', 'm', 's', 'z', 't', 'A', 'a', '\'']

namespace Part

/-- The letter of a part. -/
def letter : Part → Char
  | day => 'd'
  | month => 'M'
  | year => 'y'
  | hour => 'h'
  | hour24 => 'H'
  | minute => 'm'
  | second => 's'
  | millis => 'z'
  | zone => 't'

/-- How many letters a field of the part may have. -/
def widths : Part → List Nat
  | day | month => [1, 2, 3, 4]
  | year => [2, 4]
  | hour | hour24 | minute | second => [1, 2]
  | millis => [1, 3]
  | zone => [1]

theorem letter_inj {p q : Part} (h : p.letter = q.letter) : p = q := by
  cases p <;> cases q <;> simp_all [letter]

theorem letter_ne_quote (p : Part) : p.letter ≠ '\'' := by cases p <;> decide

theorem letter_ne_marker (p : Part) (upper : Bool) : p.letter ≠ if upper then 'A' else 'a' := by
  cases p <;> cases upper <;> decide

theorem letter_not_mem (p : Part) : p.letter ∉ ['A', 'a', '\''] := by cases p <;> decide

theorem letter_mem_marks {p : Part} (h : 1 ∈ p.widths) : p.letter ∈ marks := by
  cases p <;> simp_all [widths, letter, marks]

theorem pos_of_mem_widths {p : Part} {w : Nat} (h : w ∈ p.widths) : 0 < w := by
  cases p <;> simp [widths] at h <;> omega

end Part

/-- A run of letters that stands for a part of a moment. -/
structure DateField where
  part : Part
  width : Nat
  width_mem : width ∈ part.widths
  deriving DecidableEq

/-- A token of a pattern. -/
inductive Token where
  /-- A part of the moment. -/
  | field (f : DateField)
  /-- Before or after noon, in upper or lower case by the first letter. -/
  | meridiem (upper : Bool) (second : Option Char) (fits : ∀ c ∈ second, c = 'P' ∨ c = 'p')
  /-- Two quotes outside a quoted section. -/
  | quote
  /-- A quoted section, closed or running to the end of the pattern, in which each quote is doubled.
  It does not begin with a quote inside, for two quotes are no section. -/
  | quoted (text : List Char) (closed : Bool) (opens : text.head? ≠ some '\'')
    (holds : closed = true → text ≠ [])
  /-- Any other character. -/
  | char (c : Char) (plain : c ∉ marks)
  deriving DecidableEq

/-- How a token is written in a pattern. -/
def Token.spelling : Token → List Char
  | .field f => List.replicate f.width f.part.letter
  | .meridiem upper second _ => (if upper then 'A' else 'a') :: second.toList
  | .quote => ['\'', '\'']
  | .quoted text closed _ _ => '\'' :: (doubled ['\''] text ++ if closed then ['\''] else [])
  | .char c _ => [c]

/-- No longer token is spelled where the token stands, with `rest` after it. -/
def Token.Longest (tok : Token) (rest : List Char) : Prop :=
  ∀ other : Token, other.spelling <+: tok.spelling ++ rest →
    other.spelling.length ≤ tok.spelling.length

/-- The tokens of a pattern, from left to right, each the longest at its place. -/
inductive Tokenization : List Char → List Token → Prop where
  | nil : Tokenization [] []
  | cons {tok : Token} {rest : List Char} {toks : List Token} :
    tok.Longest rest → Tokenization rest toks → Tokenization (tok.spelling ++ rest) (tok :: toks)

/-! ## Quoted sections -/

section Quoted

variable {text : List Char}

/-- A section ends with the first quote that is not doubled. -/
theorem quoted_closed {rest : List Char} (h : rest.head? ≠ some '\'') :
    Clock.quoted (doubled ['\''] text ++ '\'' :: rest) = (text, rest) := by
  induction text with
  | nil =>
    rw [doubled_nil, List.nil_append, Clock.quoted]
    rintro s rfl
    exact h rfl
  | cons c text ih =>
    by_cases hc : c = '\''
    · subst hc
      rw [doubled_self, List.cons_append, List.cons_append, Clock.quoted, ih]
    · rw [doubled_of_ne hc, List.cons_append, Clock.quoted, ih]
      all_goals intros; contradiction

/-- A section without such a quote runs to the end. -/
theorem quoted_open (text : List Char) : Clock.quoted (doubled ['\''] text) = (text, []) := by
  induction text with
  | nil => rfl
  | cons c text ih =>
    by_cases hc : c = '\''
    · subst hc
      rw [doubled_self, Clock.quoted, ih]
    · rw [doubled_of_ne hc, Clock.quoted, ih]
      all_goals intros; contradiction

theorem quoted_section (text : List Char) (closed : Bool) :
    Clock.quoted (doubled ['\''] text ++ if closed then ['\''] else []) = (text, []) := by
  cases closed with
  | true => exact quoted_closed (by simp)
  | false => simpa using quoted_open text

end Quoted

/-! ## One token at a place -/

namespace Token

variable {tok : Token} {rest : List Char}

/-- The first character of a token. -/
def first : Token → Char
  | .field f => f.part.letter
  | .meridiem upper _ _ => if upper then 'A' else 'a'
  | .quote | .quoted .. => '\''
  | .char c _ => c

theorem exists_spelling_eq (tok : Token) : ∃ r, tok.spelling = tok.first :: r := by
  cases tok with
  | field f =>
    obtain ⟨w, hw⟩ := Nat.exists_eq_add_of_lt (Part.pos_of_mem_widths f.width_mem)
    exact ⟨List.replicate w f.part.letter, by rw [spelling, hw, Nat.zero_add]; rfl⟩
  | _ => exact ⟨_, rfl⟩

theorem spelling_ne_nil (tok : Token) : tok.spelling ≠ [] := by
  obtain ⟨r, hr⟩ := tok.exists_spelling_eq
  rw [hr]
  exact List.cons_ne_nil _ _

theorem first_eq_of_append {a b : Token} {r s : List Char}
    (h : a.spelling ++ r = b.spelling ++ s) : a.first = b.first := by
  obtain ⟨x, hx⟩ := a.exists_spelling_eq
  obtain ⟨y, hy⟩ := b.exists_spelling_eq
  rw [hx, hy] at h
  exact (List.cons.inj h).1

/-- A quote begins two quotes or a section. -/
theorem eq_of_first_quote (h : tok.first = '\'') :
    tok = .quote ∨ ∃ text closed opens holds, tok = .quoted text closed opens holds := by
  cases tok with
  | field f => exact absurd h f.part.letter_ne_quote
  | meridiem upper => cases upper <;> simp [first] at h
  | quote => exact .inl rfl
  | quoted text closed opens holds => exact .inr ⟨text, closed, opens, holds, rfl⟩
  | char c plain =>
    subst h
    exact absurd (by decide) plain

/-- An `A` or `a` begins a marker for before or after noon. -/
theorem eq_of_first_marker {upper : Bool} (h : tok.first = if upper then 'A' else 'a') :
    ∃ second fits, tok = .meridiem upper second fits := by
  cases tok with
  | field f => exact absurd h (f.part.letter_ne_marker upper)
  | meridiem own second fits =>
    obtain rfl : own = upper := by cases own <;> cases upper <;> simp_all [first]
    exact ⟨second, fits, rfl⟩
  | char c plain =>
    subst h
    exact absurd (by cases upper <;> decide) plain
  | _ => cases upper <;> simp [first] at h

/-- The letter of a part begins a field of the part, or is copied. -/
theorem eq_of_first_letter {p : Part} (h : tok.first = p.letter) :
    (∃ f : DateField, f.part = p ∧ tok = .field f) ∨ ∃ plain, tok = .char p.letter plain := by
  cases tok with
  | field f => exact .inl ⟨f, Part.letter_inj h, rfl⟩
  | meridiem upper => exact absurd h.symm (p.letter_ne_marker upper)
  | char c plain =>
    subst h
    exact .inr ⟨plain, rfl⟩
  | _ => exact absurd h.symm p.letter_ne_quote

theorem letter_ne_of_plain {c : Char} (plain : c ∉ marks) (f : DateField)
    (h : List.replicate f.width f.part.letter = [c]) : False := by
  obtain ⟨part, width, hmem⟩ := f
  obtain rfl : width = 1 := by simpa using congrArg List.length h
  obtain rfl : part.letter = c := by simpa using h
  exact plain (Part.letter_mem_marks hmem)

/-- Two quotes are no section, for it would be empty and closed. -/
theorem spelling_quoted_ne {text : List Char} {closed : Bool} {opens : text.head? ≠ some '\''}
    {holds : closed = true → text ≠ []} :
    (Token.quoted text closed opens holds).spelling ≠ ['\'', '\''] := by
  intro h
  have htail : (doubled ['\''] text ++ if closed then ['\''] else []) = ['\''] := (List.cons.inj h).2
  have hread := quoted_section text closed
  rw [htail] at hread
  obtain rfl : [] = text := (Prod.mk.inj hread).1
  cases closed with
  | true => exact holds rfl rfl
  | false => cases htail

/-- No two tokens are spelled alike. -/
theorem spelling_inj {a b : Token} (h : a.spelling = b.spelling) : a = b := by
  have hfirst : a.first = b.first := first_eq_of_append (congrArg (· ++ []) h)
  cases a with
  | field f =>
    rcases eq_of_first_letter hfirst.symm with ⟨⟨part, width, hmem⟩, rfl, rfl⟩ | ⟨plain, rfl⟩
    · obtain ⟨_, _, _⟩ := f
      simpa [spelling] using congrArg List.length h
    · exact (letter_ne_of_plain plain f h).elim
  | meridiem upper second fits =>
    obtain ⟨second', fits', rfl⟩ := eq_of_first_marker hfirst.symm
    obtain rfl : second = second' := by
      cases second <;> cases second' <;> simp_all [spelling]
    rfl
  | quote =>
    rcases eq_of_first_quote hfirst.symm with rfl | ⟨text, closed, opens, holds, rfl⟩
    · rfl
    · exact absurd h.symm spelling_quoted_ne
  | quoted text closed opens holds =>
    rcases eq_of_first_quote hfirst.symm with rfl | ⟨text', closed', opens', holds', rfl⟩
    · exact absurd h spelling_quoted_ne
    · have htail := (List.cons.inj h).2
      have hread := congrArg Clock.quoted htail
      rw [quoted_section, quoted_section] at hread
      obtain rfl := (Prod.mk.inj hread).1
      have hclosed := List.append_cancel_left htail
      cases closed <;> cases closed' <;> simp_all
  | char c plain =>
    cases b with
    | field f => exact (letter_ne_of_plain plain f h.symm).elim
    | char d => simpa [spelling] using h
    | meridiem upper =>
      obtain rfl : c = if upper then 'A' else 'a' := hfirst
      exact absurd (by cases upper <;> decide) plain
    | _ =>
      obtain rfl : c = '\'' := hfirst
      exact absurd (by decide) plain

/-- The longest token at a place is one, and so is what follows it. -/
theorem Longest.unique {a b : Token} {r s : List Char} (ha : a.Longest r) (hb : b.Longest s)
    (h : a.spelling ++ r = b.spelling ++ s) : a = b ∧ r = s := by
  have hle : b.spelling.length ≤ a.spelling.length := ha b (h ▸ List.prefix_append _ _)
  have hge : a.spelling.length ≤ b.spelling.length := hb a (h ▸ List.prefix_append _ _)
  obtain ⟨hspelling, hrest⟩ := List.append_inj h (Nat.le_antisymm hge hle)
  exact ⟨spelling_inj hspelling, hrest⟩

/-- Every character is a token by itself, if nothing longer is. -/
theorem exists_spelling_singleton (c : Char) : ∃ tok : Token, tok.spelling = [c] := by
  by_cases hc : c ∈ marks
  · have hpart : (∃ p : Part, 1 ∈ p.widths ∧ p.letter = c) ∨ c = 'A' ∨ c = 'a' ∨ c = '\'' := by
      simp only [marks, List.mem_cons, List.not_mem_nil, or_false] at hc
      rcases hc with rfl | rfl | rfl | rfl | rfl | rfl | rfl | rfl | rfl | rfl | rfl
      · exact .inl ⟨.day, by decide, rfl⟩
      · exact .inl ⟨.month, by decide, rfl⟩
      · exact .inl ⟨.hour, by decide, rfl⟩
      · exact .inl ⟨.hour24, by decide, rfl⟩
      · exact .inl ⟨.minute, by decide, rfl⟩
      · exact .inl ⟨.second, by decide, rfl⟩
      · exact .inl ⟨.millis, by decide, rfl⟩
      · exact .inl ⟨.zone, by decide, rfl⟩
      · exact .inr (.inl rfl)
      · exact .inr (.inr (.inl rfl))
      · exact .inr (.inr (.inr rfl))
    rcases hpart with ⟨p, hp, rfl⟩ | rfl | rfl | rfl
    · exact ⟨.field ⟨p, 1, hp⟩, rfl⟩
    · exact ⟨.meridiem true none (by simp), rfl⟩
    · exact ⟨.meridiem false none (by simp), rfl⟩
    · exact ⟨.quoted [] false (by simp) (by simp), rfl⟩
  · exact ⟨.char c hc, rfl⟩

/-- Where some token is spelled there is a longest one. -/
theorem exists_longest_of {cs : List Char} {tok : Token} (h : tok.spelling <+: cs) :
    ∃ (longest : Token) (rest : List Char), cs = longest.spelling ++ rest ∧
      longest.Longest rest := by
  by_cases hmax : ∀ other : Token, other.spelling <+: cs →
      other.spelling.length ≤ tok.spelling.length
  · obtain ⟨rest, rfl⟩ := h
    exact ⟨tok, rest, rfl, hmax⟩
  · simp only [not_forall, Nat.not_le] at hmax
    obtain ⟨other, hother, hlonger⟩ := hmax
    have hle := hother.length_le
    exact exists_longest_of hother
termination_by cs.length - tok.spelling.length

theorem exists_longest {cs : List Char} (h : cs ≠ []) :
    ∃ (tok : Token) (rest : List Char), cs = tok.spelling ++ rest ∧ tok.Longest rest := by
  obtain ⟨c, r, rfl⟩ := List.exists_cons_of_ne_nil h
  obtain ⟨tok, htok⟩ := exists_spelling_singleton c
  have hfirst : tok.spelling <+: c :: r := htok ▸ List.prefix_append [c] r
  exact exists_longest_of hfirst

end Token

/-! ## Whole patterns -/

/-- Induction over patterns, a token at a time. -/
@[elab_as_elim]
theorem pattern_induction {motive : List Char → Prop} (cs : List Char) (nil : motive [])
    (token : ∀ (tok : Token) rest, tok.Longest rest → motive rest → motive (tok.spelling ++ rest)) :
    motive cs := by
  by_cases h : cs = []
  · exact h ▸ nil
  · obtain ⟨tok, rest, hcs, hlongest⟩ := Token.exists_longest h
    have hshorter : rest.length < cs.length := by
      have hpos := List.length_pos_iff.mpr tok.spelling_ne_nil
      rw [hcs, List.length_append]
      omega
    exact hcs ▸ token tok rest hlongest (pattern_induction rest nil token)
termination_by cs.length

/-- Every pattern has tokens. -/
theorem exists_tokenization (cs : List Char) : ∃ toks, Tokenization cs toks := by
  induction cs using pattern_induction with
  | nil => exact ⟨[], .nil⟩
  | token tok rest hlongest ih =>
    obtain ⟨toks, htoks⟩ := ih
    exact ⟨tok :: toks, .cons hlongest htoks⟩

/-- A pattern has its tokens in one way only. -/
theorem Tokenization.unique {cs : List Char} {toks others : List Token}
    (h : Tokenization cs toks) (hothers : Tokenization cs others) : others = toks := by
  induction h generalizing others with
  | nil =>
    generalize hcs : ([] : List Char) = cs at hothers
    cases hothers with
    | nil => rfl
    | @cons tok => exact absurd (List.append_eq_nil_iff.mp hcs.symm).1 tok.spelling_ne_nil
  | @cons tok rest toks hlongest htoks ih =>
    generalize hcs : tok.spelling ++ rest = cs at hothers
    cases hothers with
    | nil => exact absurd (List.append_eq_nil_iff.mp hcs).1 tok.spelling_ne_nil
    | cons hother hothers =>
      obtain ⟨rfl, rfl⟩ := hlongest.unique hother hcs
      rw [ih hothers]

/-- The tokens of a pattern spell it, with nothing left out and nothing twice. -/
theorem Tokenization.flatMap_spelling {cs : List Char} {toks : List Token}
    (h : Tokenization cs toks) : toks.flatMap Token.spelling = cs := by
  induction h with
  | nil => rfl
  | cons _ _ ih => rw [List.flatMap_cons, ih]

end PlayerText.Clock
