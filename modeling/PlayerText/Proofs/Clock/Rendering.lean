import Mathlib.Data.List.TakeWhile
import PlayerText.Proofs.Clock.Run

/-!
# What the tokens of a pattern show

A moment in a pattern is the texts of the pattern's tokens, one after the other. Reading a pattern
goes on by a whole token at a time: never by none and never past the end of the pattern.

* `DateField.text`, `Token.text`: what a token shows of a moment.
* `field?_eq`, `field?_eq_none`: the field that a run begins with is the widest that fits.
* `render_spelling`: rendering takes the longest token at each place.
* `format_eq_join_tokens`: a moment in a pattern is the texts of its tokens.
-/

namespace PlayerText.Clock

open Number Text

/-! ## The text of a token -/

/-- A number with one digit or more, with two digits, or the first letters of a name or all of
it. -/
def numberOrName (width n : Nat) (name : String) : String :=
  match width with
  | 1 => numeral n
  | 2 => padded 2 n
  | 3 => abbreviated name
  | _ => name

/-- The text of a field of a part, by its width. -/
def Part.text (m : Moment) (twelveHour : Bool) (width : Nat) : Part → String
  | .day => numberOrName width m.date.day (weekdayNames.getD m.date.weekday "")
  | .month => numberOrName width m.date.month (monthNames.getD (m.date.month - 1) "")
  | .year => if width = 2 then padded 2 (m.date.year % 100).toNat else yearText m.date.year
  | .hour => oneOrTwo width (if twelveHour then m.time.hour12 else m.time.hour)
  | .hour24 => oneOrTwo width m.time.hour
  | .minute => oneOrTwo width m.time.minute
  | .second => oneOrTwo width m.time.second
  | .millis => if width = 1 then numeral m.time.millis else padded 3 m.time.millis
  | .zone => m.zone.text

/-- What a token shows of a moment. -/
def Token.text (m : Moment) (twelveHour : Bool) : Token → String
  | .field f => f.part.text m twelveHour f.width
  | .meridiem upper _ _ => m.meridiem upper
  | .quote => "'"
  | .quoted text _ _ _ => String.ofList text
  | .char c _ => String.singleton c

/-! ## The field of a run -/

section Fields

variable {m : Moment} {twelveHour : Bool} {c : Char} {p : Part} {run width : Nat}

/-- The width is one of these, and the widest that is not wider than the run. -/
def IsWidest (widths : List Nat) (run width : Nat) : Prop :=
  width ∈ widths ∧ width ≤ run ∧ ∀ w ∈ widths, w ≤ run → w ≤ width

theorem IsWidest.of_two (h : IsWidest [1, 2] run width) : min run 2 = width := by
  obtain ⟨hmem, hle, hwidest⟩ := h
  simp only [List.mem_cons, List.not_mem_nil, or_false, forall_eq_or_imp, forall_eq]
    at hmem hwidest
  omega

theorem IsWidest.of_four (h : IsWidest [1, 2, 3, 4] run width) (n : Nat) (name : String) :
    (if run = 1 then (numeral n, 1) else if run = 2 then (padded 2 n, 2)
      else if run = 3 then (abbreviated name, 3) else (name, 4)) =
      (numberOrName width n name, width) := by
  obtain ⟨hmem, hle, hwidest⟩ := h
  simp only [List.mem_cons, List.not_mem_nil, or_false, forall_eq_or_imp, forall_eq]
    at hmem hwidest
  rcases hmem with rfl | rfl | rfl | rfl
  · rw [if_pos (by omega)]
    rfl
  · rw [if_neg (by omega), if_pos (by omega)]
    rfl
  · rw [if_neg (by omega), if_neg (by omega), if_pos (by omega)]
    rfl
  · rw [if_neg (by omega), if_neg (by omega), if_neg (by omega)]
    rfl

theorem field?_number (n : Nat) (h : IsWidest [1, 2] run width) :
    some (oneOrTwo (min run 2) n, min run 2) = some (oneOrTwo width n, width) := by
  rw [h.of_two]

/-- The widest field that a run has letters for is taken. -/
theorem field?_eq (h : IsWidest p.widths run width) :
    m.field? twelveHour p.letter run = some (p.text m twelveHour width, width) := by
  cases p with
  | day => exact congrArg some (h.of_four _ _)
  | month => exact congrArg some (h.of_four _ _)
  | year =>
    obtain ⟨hmem, hle, hwidest⟩ := h
    simp only [Part.widths, List.mem_cons, List.not_mem_nil, or_false, forall_eq_or_imp,
      forall_eq] at hmem hwidest
    rcases hmem with rfl | rfl
    · simp [Moment.field?, Part.letter, Part.text, hle, show ¬4 ≤ run by omega]
    · simp [Moment.field?, Part.letter, Part.text, hle]
  | hour => exact field?_number _ h
  | hour24 => exact field?_number _ h
  | minute => exact field?_number _ h
  | second => exact field?_number _ h
  | millis =>
    obtain ⟨hmem, hle, hwidest⟩ := h
    simp only [Part.widths, List.mem_cons, List.not_mem_nil, or_false, forall_eq_or_imp,
      forall_eq] at hmem hwidest
    rcases hmem with rfl | rfl
    · simp [Moment.field?, Part.letter, Part.text, show ¬3 ≤ run by omega]
    · simp [Moment.field?, Part.letter, Part.text, hle]
  | zone =>
    obtain rfl : width = 1 := List.mem_singleton.mp h.1
    rfl

/-- What is no mark has no field, but for a `y` that is not alone. -/
theorem field?_eq_none (hc : c ∉ marks) (hy : c = 'y' → run ≤ 1) :
    m.field? twelveHour c run = none := by
  unfold Moment.field?
  split
  case h_3 =>
    rw [if_neg (by have := hy rfl; omega), if_neg (by have := hy rfl; omega)]
  case h_10 => rfl
  all_goals exact absurd (by decide) hc

/-- A field takes at least one letter of its run, and no more than there are. -/
theorem field?_taken {text : String} {taken : Nat} (hrun : 0 < run)
    (h : m.field? twelveHour c run = some (text, taken)) : 0 < taken ∧ taken ≤ run := by
  unfold Moment.field? at h
  split at h <;> grind

end Fields

/-! ## What follows the longest token -/

theorem Token.length_spelling_closed {text : List Char} (opens : text.head? ≠ some '\'')
    (holds : true = true → text ≠ []) :
    (Token.quoted text true opens holds).spelling.length = (doubled ['\''] text).length + 2 := by
  simp [spelling]

theorem Token.length_spelling_open {text : List Char} (opens : text.head? ≠ some '\'')
    (holds : false = true → text ≠ []) :
    (Token.quoted text false opens holds).spelling.length = (doubled ['\''] text).length + 1 := by
  simp [spelling]

namespace Token.Longest

variable {rest : List Char}

/-- A marker of one letter is not followed by its second letter. -/
theorem head?_ne_of_meridiem {upper : Bool} {fits : ∀ c ∈ none, c = 'P' ∨ c = 'p'}
    (h : (Token.meridiem upper none fits).Longest rest) {d : Char} (hd : d = 'P' ∨ d = 'p') :
    rest.head? ≠ some d := by
  intro hhead
  obtain ⟨s, rfl⟩ := List.head?_eq_some_iff.mp hhead
  have hlonger := h (.meridiem upper (some d) (by simpa using hd)) ⟨s, by simp [spelling]⟩
  simp [spelling] at hlonger

/-- A closed section is not followed by a quote, which would be a doubled one. -/
theorem head?_ne_of_closed {text : List Char} {opens : text.head? ≠ some '\''}
    {holds : true = true → text ≠ []} (h : (Token.quoted text true opens holds).Longest rest) :
    rest.head? ≠ some '\'' := by
  intro hhead
  obtain ⟨s, rfl⟩ := List.head?_eq_some_iff.mp hhead
  have hopens : (text ++ ['\'']).head? ≠ some '\'' := by
    rwa [List.head?_append_of_ne_nil _ (holds rfl)]
  have hlonger := h (.quoted (text ++ ['\'']) false hopens (by simp))
    ⟨s, by simp [spelling, doubled_append, doubled_self]⟩
  simp [spelling, doubled_append, doubled_self] at hlonger

/-- A section that is not closed is the last token. -/
theorem eq_nil_of_open {text : List Char} {opens : text.head? ≠ some '\''}
    {holds : false = true → text ≠ []} (h : (Token.quoted text false opens holds).Longest rest) :
    rest = [] := by
  cases rest with
  | nil => rfl
  | cons c s =>
    exfalso
    by_cases hc : c = '\''
    · subst hc
      by_cases htext : text = []
      · subst htext
        have hlonger := h .quote ⟨s, by simp [spelling]⟩
        simp [spelling] at hlonger
      · have hlonger := h (.quoted text true opens fun _ => htext) ⟨s, by simp [spelling]⟩
        rw [length_spelling_closed, length_spelling_open] at hlonger
        omega
    · have hopens : (text ++ [c]).head? ≠ some '\'' := by
        cases text with
        | nil => simpa using hc
        | cons => exact opens
      have hlonger := h (.quoted (text ++ [c]) false hopens (by simp))
        ⟨s, by simp [spelling, doubled_append, doubled_of_ne hc]⟩
      rw [length_spelling_open, length_spelling_open, doubled_append, doubled_of_ne hc,
        List.length_append, List.length_cons] at hlonger
      omega

/-- The letters of a run, which begins with `k` of them. -/
theorem replicate_takeWhile_append (c : Char) (k : Nat) (rest : List Char) :
    List.replicate (k + (rest.takeWhile (· == c)).length) c <+: List.replicate k c ++ rest := by
  have hrun : rest.takeWhile (· == c) = List.replicate (rest.takeWhile (· == c)).length c :=
    List.eq_replicate_of_mem fun d hd => by simpa using List.mem_takeWhile_imp hd
  rw [List.replicate_add, List.prefix_append_right_inj, ← hrun]
  exact List.takeWhile_prefix _

/-- A field is the widest that the run has letters for. -/
theorem isWidest {f : DateField} (h : (Token.field f).Longest rest) :
    IsWidest f.part.widths (f.width + (rest.takeWhile (· == f.part.letter)).length) f.width := by
  refine ⟨f.width_mem, Nat.le_add_right _ _, fun w hw hle => ?_⟩
  have hspelled : List.replicate w f.part.letter <+: (Token.field f).spelling ++ rest := by
    refine List.IsPrefix.trans ?_ (replicate_takeWhile_append f.part.letter f.width rest)
    obtain ⟨d, hd⟩ := Nat.exists_eq_add_of_le hle
    exact ⟨List.replicate d f.part.letter, by rw [hd, List.replicate_add]⟩
  simpa [spelling] using h (.field ⟨f.part, w, hw⟩) hspelled

/-- A `y` that is copied is alone. -/
theorem head?_ne_of_y {plain : 'y' ∉ marks} (h : (Token.char 'y' plain).Longest rest) :
    rest.head? ≠ some 'y' := by
  intro hhead
  obtain ⟨s, rfl⟩ := List.head?_eq_some_iff.mp hhead
  have hlonger := h (.field ⟨.year, 2, by decide⟩) ⟨s, by simp [spelling, Part.letter]⟩
  simp [spelling] at hlonger

end Token.Longest

/-! ## Rendering by tokens -/

section Rendering

variable {m : Moment} {twelveHour : Bool} {c : Char} {rest r : List Char}

theorem render_quoted (h : r.head? ≠ some '\'') : m.render twelveHour ('\'' :: r) =
    String.ofList (quoted r).1 ++ m.render twelveHour (quoted r).2 := by
  rw [Moment.render]
  rintro s rfl
  exact h rfl

theorem render_meridiem (upper : Bool) {second : Option Char}
    (hsecond : ∀ d ∈ second, d = 'P' ∨ d = 'p')
    (hrest : second = none → rest.head? ≠ some 'P' ∧ rest.head? ≠ some 'p') :
    m.render twelveHour ((if upper then 'A' else 'a') :: (second.toList ++ rest)) =
      m.meridiem upper ++ m.render twelveHour rest := by
  cases second with
  | some d =>
    rcases hsecond d rfl with rfl | rfl <;> cases upper <;>
      simp only [Option.toList, List.cons_append, List.nil_append, Bool.false_eq_true,
        if_true, if_false, Moment.render]
  | none =>
    obtain ⟨hP, hp⟩ := hrest rfl
    cases upper <;>
    · simp only [Option.toList, List.nil_append, Bool.false_eq_true, if_true, if_false]
      rw [Moment.render]
      · rintro s rfl
        exact hP rfl
      · rintro s rfl
        exact hp rfl

/-- A run of letters gives a field. -/
theorem render_field {text : String} {taken : Nat} (hc : c ∉ ['A', 'a', '\''])
    (h : m.field? twelveHour c ((r.takeWhile (· == c)).length + 1) = some (text, taken)) :
    m.render twelveHour (c :: r) = text ++ m.render twelveHour (r.drop (taken - 1)) := by
  simp only [List.mem_cons, List.not_mem_nil, or_false, not_or] at hc
  rw [Moment.render, h]
  all_goals intros; simp_all

/-- Any other character is copied. -/
theorem render_char (hc : c ∉ ['A', 'a', '\''])
    (h : m.field? twelveHour c ((r.takeWhile (· == c)).length + 1) = none) :
    m.render twelveHour (c :: r) = String.singleton c ++ m.render twelveHour r := by
  simp only [List.mem_cons, List.not_mem_nil, or_false, not_or] at hc
  rw [Moment.render, h]
  · rfl
  all_goals intros; simp_all

/-- Rendering takes the longest token at each place, and all of it. -/
theorem render_spelling {tok : Token} (h : tok.Longest rest) :
    m.render twelveHour (tok.spelling ++ rest) =
      tok.text m twelveHour ++ m.render twelveHour rest := by
  cases tok with
  | field f =>
    obtain ⟨w, hw⟩ := Nat.exists_eq_add_of_lt (Part.pos_of_mem_widths f.width_mem)
    rw [Nat.zero_add] at hw
    have hspelling : (Token.field f).spelling ++ rest =
        f.part.letter :: (List.replicate w f.part.letter ++ rest) := by
      rw [Token.spelling, hw]
      rfl
    have hrun : ((List.replicate w f.part.letter ++ rest).takeWhile (· == f.part.letter)).length + 1
        = f.width + (rest.takeWhile (· == f.part.letter)).length := by
      rw [List.takeWhile_append_of_pos (by simp), List.length_append, List.length_replicate]
      omega
    have htext : (Token.field f).text m twelveHour = f.part.text m twelveHour f.width := rfl
    rw [hspelling, htext, render_field f.part.letter_not_mem (hrun ▸ field?_eq h.isWidest), hw,
      Nat.add_sub_cancel, List.drop_left' (by simp)]
  | meridiem upper second fits =>
    refine render_meridiem upper fits ?_
    rintro rfl
    exact ⟨h.head?_ne_of_meridiem (.inl rfl), h.head?_ne_of_meridiem (.inr rfl)⟩
  | quote => rw [Token.spelling, List.cons_append, List.cons_append, Moment.render]; rfl
  | quoted text closed opens holds =>
    have hopens : (doubled ['\''] text ++ (if closed then ['\''] else []) ++ rest).head? ≠
        some '\'' := by
      by_cases htext : text = []
      · subst htext
        obtain rfl : closed = false := by simpa using holds
        obtain rfl := h.eq_nil_of_open
        simp
      · rw [List.append_assoc, head?_doubled_append htext]
        exact opens
    have hread : quoted (doubled ['\''] text ++ (if closed then ['\''] else []) ++ rest) =
        (text, rest) := by
      cases closed with
      | true => simpa using quoted_closed h.head?_ne_of_closed
      | false =>
        obtain rfl := h.eq_nil_of_open
        simpa using quoted_open text
    rw [Token.spelling, List.cons_append, render_quoted hopens, hread]
    rfl
  | char c plain =>
    have hc : c ∉ ['A', 'a', '\''] := fun hmem => plain (by simp_all [marks])
    have hrun : c = 'y' → (rest.takeWhile (· == c)).length + 1 ≤ 1 := by
      rintro rfl
      cases rest with
      | nil => exact Nat.le_refl _
      | cons d s =>
        have hd : d ≠ 'y' := by simpa using h.head?_ne_of_y
        simp [hd]
    exact render_char hc (field?_eq_none plain hrun)

/-- A pattern shows what its tokens show. -/
theorem render_eq_join {cs : List Char} {toks : List Token} (h : Tokenization cs toks) :
    m.render twelveHour cs = String.join (toks.map (Token.text m twelveHour)) := by
  induction h with
  | nil => rw [Moment.render]; rfl
  | cons hlongest _ ih => rw [render_spelling hlongest, ih, List.map_cons, String.join_cons]

end Rendering

/-- A moment in a pattern is the texts of the pattern's tokens. The tokens are the longest at each
place, there is only one way to read them, and together they spell the pattern; a run of one letter
is split by its length alone. Rendering goes on by a whole token at a time, and a run gives at least
one of its letters to a field, and no more than it has. -/
theorem format_eq_join_tokens (pattern : String) :
    (∃ toks, (∀ others, Tokenization pattern.toList others ↔ others = toks) ∧
      toks.flatMap Token.spelling = pattern.toList ∧
      ∀ m : Moment, m.format pattern =
        String.join (toks.map (Token.text m (hasMeridiem pattern.toList)))) ∧
    (∀ (p : Part) (cs : List Char) (toks : List Token),
      Tokenization cs (p.split (cs.takeWhile (· == p.letter)).length ++ toks) ↔
        Tokenization (cs.dropWhile (· == p.letter)) toks) ∧
    (∀ (m : Moment) (twelveHour : Bool) (cs : List Char), cs = [] ∨
      ∃ (tok : Token) (rest : List Char), cs = tok.spelling ++ rest ∧ tok.Longest rest ∧
        0 < tok.spelling.length ∧ m.render twelveHour cs =
          tok.text m twelveHour ++ m.render twelveHour rest) ∧
    ∀ (m : Moment) (twelveHour : Bool) (c : Char) (more : Nat),
      (m.field? twelveHour c (more + 1)).all fun f => 0 < f.2 ∧ f.2 ≤ more + 1 := by
  refine ⟨?_, tokenization_takeWhile, fun m twelveHour cs => ?_, fun m twelveHour c more => ?_⟩
  · obtain ⟨toks, htoks⟩ := exists_tokenization pattern.toList
    refine ⟨toks, fun others => ⟨htoks.unique, ?_⟩, htoks.flatMap_spelling, fun m => ?_⟩
    · rintro rfl
      exact htoks
    · exact render_eq_join htoks
  · by_cases hcs : cs = []
    · exact .inl hcs
    · obtain ⟨tok, rest, rfl, hlongest⟩ := Token.exists_longest hcs
      exact .inr ⟨tok, rest, rfl, hlongest, List.length_pos_iff.mpr tok.spelling_ne_nil,
        render_spelling hlongest⟩
  · cases hfield : m.field? twelveHour c (more + 1) with
    | none => rfl
    | some f => simpa using field?_taken (Nat.succ_pos more) hfield

end PlayerText.Clock
