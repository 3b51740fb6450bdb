import PlayerText.Json.Reading

/-!
# What readers read

`Reads p cs v rest`: the reader `p` takes the value `v` from the front of the text `cs` and leaves
`rest`. `ReadsTail` says the same of what may read nothing. There is a rule for each way to put
readers together, so that a proof about a text goes through the text from left to right.

* `Reads.map`, `Reads.bind`, `Reads.andThen`, `Reads.spaced`: readers one after the other.
* `reads_expect`, `reads_separator_comma`, `reads_separator_close`, `closes?_eq_none`: the marks
  between values.
* `reads_many_nil`, `Reads.many_cons`: values up to an end.
* `Reads.members_last`, `Reads.members_cons`, `Reads.object`: the members of an object.
* `Reads.readAll`: a whole text.
-/

namespace PlayerText.Json

variable {α β σ : Type}

/-- The reader takes a value from the front of a text and leaves the rest. -/
def Reads (p : Reader α) (cs : List Char) (value : α) (rest : List Char) : Prop :=
  ∃ shorter, p cs = .ok ⟨value, rest, shorter⟩

/-- The same for a reader that may read nothing. -/
def ReadsTail (p : Tail α) (cs : List Char) (value : α) (rest : List Char) : Prop :=
  ∃ shorter, p cs = .ok ⟨value, rest, shorter⟩

section Combining

variable {p : Reader α} {cs rest rest' : List Char} {a : α} {b : β}

theorem Reads.map (h : Reads p cs a rest) (f : α → β) : Reads (p.map f) cs (f a) rest := by
  obtain ⟨shorter, hp⟩ := h
  exact ⟨shorter, by rw [Reader.map, hp]; rfl⟩

theorem Reads.toTail (h : Reads p cs a rest) : ReadsTail p.toTail cs a rest := by
  obtain ⟨shorter, hp⟩ := h
  exact ⟨by omega, by rw [Reader.toTail, hp]; rfl⟩

theorem readsTail_ret (a : α) (cs : List Char) : ReadsTail (.ret a) cs a cs := ⟨by omega, rfl⟩

theorem Reads.bind {next : α → Tail β} (h : Reads p cs a rest)
    (hnext : ReadsTail (next a) rest b rest') : Reads (p.bind next) cs b rest' := by
  obtain ⟨shorter, hp⟩ := h
  obtain ⟨shorter', hnext⟩ := hnext
  refine ⟨by omega, ?_⟩
  rw [Reader.bind, hp]
  change (next a rest).map _ = _
  rw [hnext]
  rfl

theorem ReadsTail.bind {p : Tail α} {next : α → Tail β} (h : ReadsTail p cs a rest)
    (hnext : ReadsTail (next a) rest b rest') : ReadsTail (p.bind next) cs b rest' := by
  obtain ⟨shorter, hp⟩ := h
  obtain ⟨shorter', hnext⟩ := hnext
  refine ⟨by omega, ?_⟩
  rw [Tail.bind, hp]
  change (next a rest).map _ = _
  rw [hnext]
  rfl

theorem Reads.andThen {next : α → Reader β} (h : Reads p cs a rest)
    (hnext : Reads (next a) rest b rest') : Reads (p.andThen next) cs b rest' :=
  h.bind hnext.toTail

/-- What a reader finds after a first character. -/
theorem Reads.afterHead (h : Reads p cs a rest) (c : Char) :
    ∃ shorter, Json.afterHead c (p cs) = .ok ⟨a, rest, shorter⟩ := by
  obtain ⟨shorter, hp⟩ := h
  exact ⟨Nat.lt_succ_of_lt shorter, by rw [Json.afterHead, hp]; rfl⟩

end Combining

/-! ## Space and marks -/

section Marks

variable {p : Reader α} {cs rest space : List Char} {a : α} {c close : Char}

/-- Space is skipped up to the first character that is none. -/
theorem skipSpace_append_cons (hspace : space.all isSpace = true) (hc : isSpace c = false)
    (cs : List Char) : skipSpace (space ++ c :: cs) = c :: cs := by
  rw [skipSpace, List.dropWhile_append_of_pos (List.all_eq_true.mp hspace),
    List.dropWhile_cons_of_neg (by simp [hc])]

/-- The space in front is no part of what is read. -/
theorem Reads.spaced (h : Reads p (c :: cs) a rest) (hspace : space.all isSpace = true)
    (hc : isSpace c = false) : Reads (Json.spaced p) (space ++ c :: cs) a rest := by
  have hread : Reads p (skipSpace (space ++ c :: cs)) a rest :=
    (skipSpace_append_cons hspace hc cs).symm ▸ h
  obtain ⟨shorter, hp⟩ := hread
  exact ⟨Nat.lt_of_lt_of_le shorter (length_skipSpace_le _), by rw [Json.spaced, hp]; rfl⟩

theorem reads_expect (c : Char) (rest : List Char) : Reads (expect c) (c :: rest) () rest :=
  ⟨Nat.lt_succ_self _, by rw [expect, if_pos rfl]; rfl⟩

theorem Reads.after_expect (h : Reads p cs a rest) (c : Char) :
    Reads ((expect c).andThen fun _ => p) (c :: cs) a rest :=
  (reads_expect c cs).andThen h

/-- Another item has to follow a comma. -/
theorem reads_separator_comma (hspace : space.all isSpace = true) (close : Char)
    (rest : List Char) : Reads (separator close) (space ++ ',' :: rest) true rest :=
  Reads.spaced ⟨Nat.lt_succ_self _, by rfl⟩ hspace (by decide)

theorem reads_separator_close (hspace : space.all isSpace = true) (hcomma : close ≠ ',')
    (hclose : isSpace close = false) (rest : List Char) :
    Reads (separator close) (space ++ close :: rest) false rest := by
  refine Reads.spaced ⟨Nat.lt_succ_self _, ?_⟩ hspace hclose
  simp only [hcomma, if_false, if_true]
  rfl

/-- Where the text goes on with something else, nothing is closed. -/
theorem closes?_eq_none (hspace : space.all isSpace = true) (hc : isSpace c = false)
    (hclose : c ≠ close) (rest : List Char) : closes? close (space ++ c :: rest) = none := by
  have hexpect : ∀ ds, ds = c :: rest → expect close ds = .error .malformed := by
    rintro _ rfl
    rw [expect, if_neg hclose]
  rw [closes?, Json.spaced, hexpect _ (skipSpace_append_cons hspace hc rest)]
  rfl

end Marks

/-! ## Rows of values -/

section Rows

variable {cs rest rest' : List Char}

theorem reads_many_nil {item : Reader (Option α)} (h : Reads item cs none rest) :
    Reads (many item) cs [] rest := by
  obtain ⟨shorter, hitem⟩ := h
  refine ⟨shorter, ?_⟩
  rw [many, hitem]
  rfl

theorem Reads.many_cons {item : Reader (Option α)} {value : α} {values : List α}
    (h : Reads item cs (some value) rest) (hothers : Reads (many item) rest values rest') :
    Reads (many item) cs (value :: values) rest' := by
  obtain ⟨shorter, hitem⟩ := h
  obtain ⟨shorter', hmany⟩ := hothers
  refine ⟨by omega, ?_⟩
  rw [many, hitem]
  change (many item rest >>= _) = _
  rw [hmany]
  rfl

variable {key : Reader String} {member : σ → String → Reader σ} {s s' t : σ}
  {afterMember afterMark : List Char}

/-- The last member of an object. -/
theorem Reads.members_last (h : Reads (key.andThen (member s)) cs t afterMember)
    (hmark : Reads (separator '\x7d') afterMember false rest) :
    Reads (members key member s) cs t rest := by
  obtain ⟨shorter, hmember⟩ := h
  obtain ⟨shorter', hmark⟩ := hmark
  refine ⟨by omega, ?_⟩
  rw [members, hmember]
  change (separator '\x7d' afterMember >>= _) = _
  rw [hmark]
  rfl

/-- A member and those after it. -/
theorem Reads.members_cons (h : Reads (key.andThen (member s)) cs s' afterMember)
    (hmark : Reads (separator '\x7d') afterMember true afterMark)
    (hothers : Reads (members key member s') afterMark t rest) :
    Reads (members key member s) cs t rest := by
  obtain ⟨shorter, hmember⟩ := h
  obtain ⟨shorter', hmark⟩ := hmark
  obtain ⟨shorter'', hothers⟩ := hothers
  refine ⟨by omega, ?_⟩
  rw [members, hmember]
  change (separator '\x7d' afterMember >>= _) = _
  rw [hmark]
  change (members key member s' afterMark >>= _) = _
  rw [hothers]
  rfl

/-- An object that is not closed at once has members. -/
theorem Reads.object (hopen : closes? '\x7d' cs = none)
    (h : Reads (members key member s) cs t rest) : Reads (Json.object key member s) cs t rest := by
  obtain ⟨shorter, hmembers⟩ := h
  refine ⟨shorter, ?_⟩
  rw [Json.object, hopen]
  exact hmembers

end Rows

theorem Reads.readAll {p : Reader α} {text : String} {a : α} {rest : List Char}
    (h : Reads p text.toList a rest) (hrest : skipSpace rest = []) :
    Json.readAll p text = .ok a := by
  obtain ⟨shorter, hp⟩ := h
  rw [Json.readAll, hp]
  change (if skipSpace rest = [] then _ else _) = _
  rw [if_pos hrest]

end PlayerText.Json
