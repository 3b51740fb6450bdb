import Mathlib.Algebra.Ring.Parity
import PlayerText.Proofs.Clock.Meridiem

/-!
# Patterns side by side

A separator is a character that no longer token is spelled with, quoted sections apart. Where a
pattern has an even number of quotes before a separator, the separator stands outside quoted
sections, and so it is a token by itself and no token runs over it. What stands before it and what
stands behind it are rendered on their own; only the kind of hours is settled for both together.

* `IsSeparator`: the characters between which patterns are split.
* `eq_char_or_odd`: a token with a separator in it, and the quotes that stand before it there.
* `Token.Longest.append_separator`, `Tokenization.append_separator`: tokens stay what they are in
  front of a separator.
* `render_append_separator`, `hasMeridiem_append_separator`: rendering and the scan for markers split
  at a separator.
* `format_append_separator`: so does a moment in a pattern.
-/

namespace PlayerText.Clock

open Text

/-- A character that is neither a quote nor a letter of fields or markers. -/
def IsSeparator (c : Char) : Prop :=
  c ∉ ['\'', 'd', 'M', 'y', 'h', 'H', 'm', 's', 'z', 'A', 'a', 't', 'P', 'p']

instance : DecidablePred IsSeparator := fun c => inferInstanceAs (Decidable (c ∉ _))

namespace IsSeparator

variable {c : Char}

theorem ne_quote (h : IsSeparator c) : c ≠ '\'' := by
  rintro rfl
  exact h (by decide)

theorem ne_letter (h : IsSeparator c) (p : Part) : c ≠ p.letter := by
  rintro rfl
  exact h (by cases p <;> decide)

theorem not_mem_marker (h : IsSeparator c) : c ∉ ['A', 'a', 'P', 'p'] := by
  intro hmem
  simp only [List.mem_cons, List.not_mem_nil, or_false] at hmem
  rcases hmem with rfl | rfl | rfl | rfl <;> exact h (by decide)

theorem not_mem_marks (h : IsSeparator c) : c ∉ marks := by
  intro hmem
  simp only [marks, List.mem_cons, List.not_mem_nil, or_false] at hmem
  rcases hmem with rfl | rfl | rfl | rfl | rfl | rfl | rfl | rfl | rfl | rfl | rfl <;>
    exact h (by decide)

end IsSeparator

/-! ## Quotes before a separator -/

namespace Token

variable {tok : Token} {c : Char} {a b rest : List Char}

theorem mem_of_mem_meridiem {upper : Bool} {second : Option Char}
    {fits : ∀ c ∈ second, c = 'P' ∨ c = 'p'} (h : c ∈ (meridiem upper second fits).spelling) :
    c ∈ ['A', 'a', 'P', 'p'] := by
  rcases List.mem_cons.mp h with rfl | hsecond
  · cases upper <;> decide
  · rcases fits c (Option.mem_toList.mp hsecond) with rfl | rfl <;> decide

/-- A separator that is not a token by itself stands in a quoted section, with an odd number of
quotes before it. -/
theorem eq_char_or_odd (hc : IsSeparator c) (h : tok.spelling = a ++ c :: b) :
    tok = .char c hc.not_mem_marks ∨ Odd (a.count '\'') := by
  have hmem : c ∈ tok.spelling := h ▸ List.mem_append_right a List.mem_cons_self
  cases tok with
  | field f => exact absurd (List.eq_of_mem_replicate hmem) (hc.ne_letter f.part)
  | meridiem upper second fits => exact absurd (mem_of_mem_meridiem hmem) hc.not_mem_marker
  | quote => exact absurd (List.eq_of_mem_replicate (n := 2) hmem) hc.ne_quote
  | quoted text closed opens holds =>
    right
    cases a with
    | nil => exact absurd (List.cons.inj h).1.symm hc.ne_quote
    | cons d a =>
      obtain ⟨rfl, htail⟩ := List.cons.inj h
      obtain ⟨t, rfl⟩ := exists_doubled_eq (fun hmem => hc.ne_quote (List.mem_singleton.mp hmem))
        (by cases closed <;> simp [hc.ne_quote]) htail
      rw [List.count_cons_self, count_doubled List.mem_cons_self]
      exact (even_two_mul _).add_one
  | char d plain =>
    left
    obtain rfl : c = d := List.mem_singleton.mp hmem
    rfl

theorem even_count_field (f : DateField) : Even ((field f).spelling.count '\'') := by
  have hnone : '\'' ∉ (field f).spelling := fun hmem =>
    f.part.letter_ne_quote (List.eq_of_mem_replicate hmem).symm
  rw [List.count_eq_zero_of_not_mem hnone]
  exact Even.zero

/-- After a token with which the pattern does not end, quotes are even as they were before it. -/
theorem Longest.even_count (h : tok.Longest rest)
    (heven : Even ((tok.spelling ++ rest).count '\'')) : Even (rest.count '\'') := by
  have hspelling : rest = [] ∨ Even (tok.spelling.count '\'') := by
    cases tok with
    | field f => exact .inr (even_count_field f)
    | meridiem upper second fits =>
      have hnone : '\'' ∉ (meridiem upper second fits).spelling := fun hmem =>
        absurd (mem_of_mem_meridiem hmem) (by decide)
      exact .inr (by rw [List.count_eq_zero_of_not_mem hnone]; exact Even.zero)
    | quote => exact .inr (by decide)
    | quoted text closed opens holds =>
      cases closed with
      | true =>
        right
        rw [spelling, if_pos rfl, List.count_cons_self, List.count_append,
          List.count_singleton_self, count_doubled List.mem_cons_self]
        exact (even_two_mul _).add_one.add_one
      | false => exact .inl h.eq_nil_of_open
    | char d plain =>
      have hd : d ≠ '\'' := by
        rintro rfl
        exact plain (by decide)
      exact .inr (by rw [spelling, List.count_cons_of_ne hd]; exact Even.zero)
  rcases hspelling with rfl | hspelling
  · exact Even.zero
  · rw [List.count_append] at heven
    exact (Nat.even_add.mp heven).mp hspelling

/-- A separator is the longest token where it stands. -/
theorem longest_separator (hc : IsSeparator c) (q : List Char) :
    (Token.char c hc.not_mem_marks).Longest q := by
  intro other hother
  have hfirst : other.first = c := by
    obtain ⟨s, hs⟩ := hother
    exact first_eq_of_append hs
  obtain ⟨r, hr⟩ := other.exists_spelling_eq
  rw [hfirst] at hr
  rcases eq_char_or_odd (a := []) hc hr with rfl | hodd
  · exact Nat.le_refl _
  · exact absurd hodd (by decide)

/-- In front of a separator a token stays the longest, for a longer one would have the separator
inside its quotes. -/
theorem Longest.append_separator (h : tok.Longest rest)
    (heven : Even ((tok.spelling ++ rest).count '\'')) (hc : IsSeparator c) (q : List Char) :
    tok.Longest (rest ++ c :: q) := by
  intro other hother
  rw [← List.append_assoc] at hother
  have hbefore := List.prefix_append (tok.spelling ++ rest) (c :: q)
  rcases List.prefix_or_prefix_of_prefix hother hbefore with hwithin | ⟨s, hs⟩
  · exact h other hwithin
  · -- A token that goes on behind the rest has the separator as its next character.
    cases s with
    | nil =>
      rw [List.append_nil] at hs
      exact h other (hs ▸ List.prefix_rfl)
    | cons d s =>
      obtain rfl : d = c := by
        rw [← hs, List.prefix_append_right_inj] at hother
        exact (List.cons_prefix_cons.mp hother).1
      rcases eq_char_or_odd hc hs.symm with rfl | hodd
      · exact List.length_pos_iff.mpr tok.spelling_ne_nil
      · exact absurd heven (Nat.not_even_iff_odd.mpr hodd)

end Token

/-! ## Splitting at a separator -/

section Splitting

variable {c : Char} {p q : List Char} {toks others : List Token}

/-- The tokens before a separator, the separator, and the tokens behind it. -/
theorem Tokenization.append_separator (h : Tokenization p toks) (heven : Even (p.count '\''))
    (hc : IsSeparator c) (hq : Tokenization q others) :
    Tokenization (p ++ c :: q) (toks ++ .char c hc.not_mem_marks :: others) := by
  induction h with
  | nil => exact .cons (Token.longest_separator hc q) hq
  | @cons tok rest toks hlongest _ ih =>
    rw [List.append_assoc]
    exact .cons (hlongest.append_separator heven hc q) (ih (hlongest.even_count heven))

/-- What is rendered on both sides of a separator does not touch. -/
theorem render_append_separator (m : Moment) (twelveHour : Bool) (heven : Even (p.count '\''))
    (hc : IsSeparator c) (q : List Char) :
    m.render twelveHour (p ++ c :: q) =
      m.render twelveHour p ++ String.singleton c ++ m.render twelveHour q := by
  obtain ⟨toks, hp⟩ := exists_tokenization p
  obtain ⟨others, hq⟩ := exists_tokenization q
  rw [render_eq_join (hp.append_separator heven hc hq), render_eq_join hp, render_eq_join hq,
    List.map_append, String.join_append, List.map_cons, String.join_cons, String.append_assoc]
  rfl

/-- A marker on either side of a separator is a marker of the whole pattern. -/
theorem hasMeridiem_append_separator (heven : Even (p.count '\'')) (hc : IsSeparator c)
    (q : List Char) : hasMeridiem (p ++ c :: q) = (hasMeridiem p || hasMeridiem q) := by
  obtain ⟨toks, hp⟩ := exists_tokenization p
  obtain ⟨others, hq⟩ := exists_tokenization q
  rw [hasMeridiem_eq_any (hp.append_separator heven hc hq), hasMeridiem_eq_any hp,
    hasMeridiem_eq_any hq, List.any_append, List.any_cons]
  rfl

end Splitting

/-- A pattern splits at a separator that an even number of quotes stands before: the two sides are
rendered on their own, and hours are of a twelve-hour clock on both if either side has a marker. -/
theorem format_append_separator (m : Moment) (p q : String) (c : Char)
    (heven : Even (p.toList.count '\'')) (hc : IsSeparator c) :
    let twelveHour := hasMeridiem p.toList || hasMeridiem q.toList
    m.format (p ++ String.singleton c ++ q) =
      m.render twelveHour p.toList ++ String.singleton c ++ m.render twelveHour q.toList := by
  intro twelveHour
  have hpattern : (p ++ String.singleton c ++ q).toList = p.toList ++ c :: q.toList := by
    simp
  rw [Moment.format, hpattern, hasMeridiem_append_separator heven hc,
    render_append_separator m twelveHour heven hc]

/-- A closed section in front of the separator, a section that is never closed behind it, and the
marker for the hour in front only there. -/
theorem format_append_separator_quotes :
    let m : Moment := ⟨⟨2024, 3, 9, by decide, by decide⟩,
      ⟨14, 5, 7, 0, by decide, by decide, by decide, by decide⟩, .utc⟩
    let p := "h'''clock'"
    let q := "ap 'till-h"
    let twelveHour := hasMeridiem p.toList || hasMeridiem q.toList
    (Even (p.toList.count '\'') ∧ IsSeparator '-') ∧
      m.format (p ++ String.singleton '-' ++ q) =
        m.render twelveHour p.toList ++ String.singleton '-' ++ m.render twelveHour q.toList ∧
      m.render twelveHour p.toList = "2'clock" := by
  have heven : Even ("h'''clock'".toList.count '\'') := by decide
  have hc : IsSeparator '-' := by decide
  exact ⟨⟨heven, hc⟩, format_append_separator _ _ _ _ heven hc, by decide +kernel⟩

end PlayerText.Clock
