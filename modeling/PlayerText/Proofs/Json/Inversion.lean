import PlayerText.Proofs.Json.Reading

/-!
# What a reading tells

The rules of `PlayerText.Proofs.Json.Reading` the other way round: from what was read, what the
parts of a reader have read, and how the text is made up.

* `Reads.unique`: a text is read in one way.
* `Reads.of_map`, `Reads.of_bind`, `Reads.of_andThen`, `ReadsTail.of_toTail`: the parts of a reader.
* `reads_spaced_iff`, `Reads.of_expect`, `Reads.of_separator`, `closes?_eq_some_iff`: the marks
  between values.
* `Reads.many_induction`, `Reads.items_induction`, `Reads.members_induction`: induction over what
  was read of a row of values.
* `reads_members_iff`: the first member and what stands behind it.
* `reads_array_iff`, `reads_object_iff`, `reads_object_iff_members`: a container is closed at once,
  or has something in it.
* `readAll_eq_ok_iff`: a whole text.
-/

namespace PlayerText.Json

variable {α β σ : Type}

section Combining

variable {p : Reader α} {cs rest rest' : List Char} {a a' : α} {b : β}

/-- A text is read in one way. -/
theorem Reads.unique (h : Reads p cs a rest) (h' : Reads p cs a' rest') :
    a = a' ∧ rest = rest' := by
  obtain ⟨_, h⟩ := h
  obtain ⟨_, h'⟩ := h'
  rw [h] at h'
  cases h'
  exact ⟨rfl, rfl⟩

theorem Reads.of_map {f : α → β} (h : Reads (p.map f) cs b rest) :
    ∃ a, Reads p cs a rest ∧ f a = b := by
  obtain ⟨_, h⟩ := h
  rw [Reader.map] at h
  cases hp : p cs with
  | error fault => rw [hp] at h; cases h
  | ok r => rw [hp] at h; cases h; exact ⟨r.value, ⟨r.shorter, hp⟩, rfl⟩

theorem ReadsTail.of_toTail (h : ReadsTail p.toTail cs a rest) : Reads p cs a rest := by
  obtain ⟨_, h⟩ := h
  rw [Reader.toTail] at h
  cases hp : p cs with
  | error fault => rw [hp] at h; cases h
  | ok r => rw [hp] at h; cases h; exact ⟨r.shorter, hp⟩

theorem ReadsTail.of_ret (h : ReadsTail (.ret a) cs a' rest) : a' = a ∧ rest = cs := by
  obtain ⟨_, h⟩ := h
  cases h
  exact ⟨rfl, rfl⟩

theorem ReadsTail.not_fail {fault : JsonFault} (h : ReadsTail (.fail fault) cs a rest) : False := by
  obtain ⟨_, h⟩ := h
  cases h

theorem Reads.of_bind {next : α → Tail β} (h : Reads (p.bind next) cs b rest) :
    ∃ a mid, Reads p cs a mid ∧ ReadsTail (next a) mid b rest := by
  obtain ⟨_, h⟩ := h
  rw [Reader.bind] at h
  cases hp : p cs with
  | error fault => rw [hp] at h; cases h
  | ok r =>
    rw [hp] at h
    change (next r.value r.rest).map _ = _ at h
    cases hnext : next r.value r.rest with
    | error fault => rw [hnext] at h; cases h
    | ok r' =>
      rw [hnext] at h
      cases h
      exact ⟨r.value, r.rest, ⟨r.shorter, hp⟩, ⟨r'.shorter, hnext⟩⟩

theorem ReadsTail.of_bind {q : Tail α} {next : α → Tail β} (h : ReadsTail (q.bind next) cs b rest) :
    ∃ a mid, ReadsTail q cs a mid ∧ ReadsTail (next a) mid b rest := by
  obtain ⟨_, h⟩ := h
  rw [Tail.bind] at h
  cases hq : q cs with
  | error fault => rw [hq] at h; cases h
  | ok r =>
    rw [hq] at h
    change (next r.value r.rest).map _ = _ at h
    cases hnext : next r.value r.rest with
    | error fault => rw [hnext] at h; cases h
    | ok r' =>
      rw [hnext] at h
      cases h
      exact ⟨r.value, r.rest, ⟨r.shorter, hq⟩, ⟨r'.shorter, hnext⟩⟩

theorem Reads.of_andThen {next : α → Reader β} (h : Reads (p.andThen next) cs b rest) :
    ∃ a mid, Reads p cs a mid ∧ Reads (next a) mid b rest := by
  obtain ⟨a, mid, ha, hnext⟩ := h.of_bind
  exact ⟨a, mid, ha, hnext.of_toTail⟩

theorem Reads.of_afterHead {c : Char} {shorter}
    (h : Json.afterHead c (p cs) = .ok ⟨a, rest, shorter⟩) : Reads p cs a rest := by
  rw [Json.afterHead] at h
  cases hp : p cs with
  | error fault => rw [hp] at h; cases h
  | ok r => rw [hp] at h; cases h; exact ⟨r.shorter, hp⟩

end Combining

/-! ## Space and marks -/

section Marks

variable {p : Reader α} {cs rest : List Char} {a : α} {c close : Char} {u : Unit}

/-- Space and what stands behind it. -/
theorem exists_space (cs : List Char) : ∃ space, space.all isSpace = true ∧
    cs = space ++ skipSpace cs ∧ ∀ c ∈ (skipSpace cs).head?, isSpace c = false := by
  refine ⟨cs.takeWhile isSpace, List.all_takeWhile, List.takeWhile_append_dropWhile.symm, ?_⟩
  intro c hc
  have hhead := List.head?_dropWhile_not isSpace cs
  rw [← skipSpace, Option.mem_def.mp hc] at hhead
  exact hhead

theorem reads_spaced_iff : Reads (spaced p) cs a rest ↔ Reads p (skipSpace cs) a rest := by
  constructor
  · rintro ⟨_, h⟩
    rw [spaced] at h
    cases hp : p (skipSpace cs) with
    | error fault => rw [hp] at h; cases h
    | ok r => rw [hp] at h; cases h; exact ⟨r.shorter, hp⟩
  · rintro ⟨shorter, h⟩
    exact ⟨Nat.lt_of_lt_of_le shorter (length_skipSpace_le cs), by rw [spaced, h]; rfl⟩

theorem Reads.of_expect (h : Reads (expect c) cs u rest) : cs = c :: rest := by
  obtain ⟨_, h⟩ := h
  cases cs with
  | nil => cases h
  | cons d r =>
    rw [expect] at h
    split at h
    · next hd => cases h; rw [hd]
    · cases h

theorem ReadsTail.of_keyword {a b : α} {word : List Char}
    (h : ReadsTail (keyword a word) cs b rest) : b = a ∧ cs = word ++ rest := by
  induction word generalizing cs with
  | nil =>
    obtain ⟨hb, hrest⟩ := h.of_ret
    exact ⟨hb, hrest.symm⟩
  | cons c word ih =>
    obtain ⟨_, mid, hc, hword⟩ := h.of_toTail.of_bind
    obtain ⟨hb, rfl⟩ := ih hword
    exact ⟨hb, hc.of_expect⟩

theorem readsTail_keyword (a : α) (word rest : List Char) :
    ReadsTail (keyword a word) (word ++ rest) a rest := by
  induction word with
  | nil => exact readsTail_ret a rest
  | cons c word ih => exact ((reads_expect c _).bind ih).toTail

theorem Reads.of_spaced_expect (h : Reads (Json.spaced (expect c)) cs u rest) :
    ∃ space, space.all isSpace = true ∧ cs = space ++ c :: rest := by
  obtain ⟨space, hspace, hcs, -⟩ := exists_space cs
  rw [(reads_spaced_iff.mp h).of_expect] at hcs
  exact ⟨space, hspace, hcs⟩

/-- After an item stands a comma or the end. -/
theorem Reads.of_separator {more : Bool} (h : Reads (separator close) cs more rest) :
    ∃ space, space.all isSpace = true ∧ cs = space ++ (if more then ',' else close) :: rest := by
  obtain ⟨space, hspace, hcs, -⟩ := exists_space cs
  have hmark := reads_spaced_iff.mp h
  refine ⟨space, hspace, ?_⟩
  generalize skipSpace cs = ds at hmark hcs
  subst hcs
  obtain ⟨_, h⟩ := hmark
  cases ds with
  | nil => cases h
  | cons c r =>
    dsimp only at h
    split at h
    · next hc => cases h; rw [hc]; rfl
    · split at h
      · next hc => cases h; rw [hc]; rfl
      · cases h

theorem closes?_eq_some_iff : (∃ shorter, closes? close cs = some ⟨(), rest, shorter⟩) ↔
    Reads (spaced (expect close)) cs () rest := by
  unfold closes? Reads
  cases spaced (expect close) cs with
  | error fault => simp [Except.toOption]
  | ok r => simp [Except.toOption]

theorem closes?_eq_none_iff : closes? close cs = none ↔ (skipSpace cs).head? ≠ some close := by
  cases hcloses : closes? close cs with
  | none =>
    refine iff_of_true rfl fun hhead => ?_
    obtain ⟨r, hr⟩ := List.head?_eq_some_iff.mp hhead
    have hread : Reads (spaced (expect close)) cs () r :=
      reads_spaced_iff.mpr (hr ▸ reads_expect close r)
    obtain ⟨_, hsome⟩ := closes?_eq_some_iff.mpr hread
    rw [hcloses] at hsome
    cases hsome
  | some done =>
    refine iff_of_false (Option.some_ne_none done) fun hhead => hhead ?_
    rw [(reads_spaced_iff.mp (closes?_eq_some_iff.mp ⟨done.shorter, hcloses⟩)).of_expect]
    rfl

end Marks

/-! ## Rows of values -/

section Rows

variable {cs rest : List Char}

/-- Induction over the values up to an end that were read. -/
theorem Reads.many_induction {item : Reader (Option α)} {motive : List Char → List α → Prop}
    (nil : ∀ cs, Reads item cs none rest → motive cs [])
    (cons : ∀ cs value mid values, Reads item cs (some value) mid → motive mid values →
      motive cs (value :: values))
    {values : List α} (h : Reads (many item) cs values rest) : motive cs values := by
  induction hn : cs.length using Nat.strongRecOn generalizing cs values with
  | _ n ih =>
    obtain ⟨_, h⟩ := h
    rw [many] at h
    cases hitem : item cs with
    | error fault => rw [hitem] at h; cases h
    | ok first =>
      obtain ⟨_ | value, mid, shorter⟩ := first
      · rw [hitem] at h
        cases h
        exact nil cs ⟨shorter, hitem⟩
      · rw [hitem] at h
        change (many item mid >>= _) = _ at h
        cases hothers : many item mid with
        | error fault => rw [hothers] at h; cases h
        | ok others =>
          rw [hothers] at h
          cases h
          refine cons cs value mid others.value ⟨shorter, hitem⟩ ?_
          exact ih mid.length (hn ▸ shorter) ⟨others.shorter, hothers⟩ rfl

/-- Induction over the items of an array that were read. -/
theorem Reads.items_induction {item : Reader α} {motive : List Char → List α → Prop}
    (last : ∀ cs value mid, Reads item cs value mid → Reads (separator ']') mid false rest →
      motive cs [value])
    (cons : ∀ cs value mid next values, Reads item cs value mid →
      Reads (separator ']') mid true next → motive next values → motive cs (value :: values))
    {values : List α} (h : Reads (items item) cs values rest) : motive cs values := by
  induction hn : cs.length using Nat.strongRecOn generalizing cs values with
  | _ n ih =>
    obtain ⟨_, h⟩ := h
    rw [items] at h
    cases hitem : item cs with
    | error fault => rw [hitem] at h; cases h
    | ok first =>
      obtain ⟨value, mid, shorter⟩ := first
      rw [hitem] at h
      change (separator ']' mid >>= _) = _ at h
      cases hmark : separator ']' mid with
      | error fault => rw [hmark] at h; cases h
      | ok mark =>
        obtain ⟨_ | _, next, shorter'⟩ := mark
        · rw [hmark] at h
          cases h
          exact last cs value mid ⟨shorter, hitem⟩ ⟨shorter', hmark⟩
        · rw [hmark] at h
          change (items item next >>= _) = _ at h
          cases hothers : items item next with
          | error fault => rw [hothers] at h; cases h
          | ok others =>
            rw [hothers] at h
            cases h
            refine cons cs value mid next others.value ⟨shorter, hitem⟩ ⟨shorter', hmark⟩ ?_
            exact ih next.length (hn ▸ by omega) ⟨others.shorter, hothers⟩ rfl

/-- Induction over the members of an object that were read. -/
theorem Reads.members_induction {key : Reader String} {member : σ → String → Reader σ}
    {t : σ} {motive : σ → List Char → Prop}
    (last : ∀ s cs mid, Reads (key.andThen (member s)) cs t mid →
      Reads (separator '\x7d') mid false rest → motive s cs)
    (cons : ∀ s cs s' mid next, Reads (key.andThen (member s)) cs s' mid →
      Reads (separator '\x7d') mid true next → Reads (members key member s') next t rest →
      motive s' next → motive s cs)
    {s : σ} (h : Reads (members key member s) cs t rest) : motive s cs := by
  induction hn : cs.length using Nat.strongRecOn generalizing cs s with
  | _ n ih =>
    obtain ⟨_, h⟩ := h
    rw [members] at h
    cases hmember : key.andThen (member s) cs with
    | error fault => rw [hmember] at h; cases h
    | ok first =>
      obtain ⟨s', mid, shorter⟩ := first
      rw [hmember] at h
      change (separator '\x7d' mid >>= _) = _ at h
      cases hmark : separator '\x7d' mid with
      | error fault => rw [hmark] at h; cases h
      | ok mark =>
        obtain ⟨_ | _, next, shorter'⟩ := mark
        · rw [hmark] at h
          cases h
          exact last s cs mid ⟨shorter, hmember⟩ ⟨shorter', hmark⟩
        · rw [hmark] at h
          change (members key member s' next >>= _) = _ at h
          cases hothers : members key member s' next with
          | error fault => rw [hothers] at h; cases h
          | ok others =>
            rw [hothers] at h
            cases h
            have hread : Reads (members key member s') next others.value others.rest :=
              ⟨others.shorter, hothers⟩
            exact cons s cs s' mid next ⟨shorter, hmember⟩ ⟨shorter', hmark⟩ hread
              (ih next.length (hn ▸ by omega) hread rfl)

/-- Behind the first member stands a mark, and behind a comma the others. -/
theorem reads_members_iff {key : Reader String} {member : σ → String → Reader σ} {s t : σ} :
    Reads (members key member s) cs t rest ↔ ∃ s' mid more next,
      Reads (key.andThen (member s)) cs s' mid ∧ Reads (separator '\x7d') mid more next ∧
        (more = false ∧ t = s' ∧ rest = next ∨
          more = true ∧ Reads (members key member s') next t rest) := by
  refine ⟨fun h => ?_, ?_⟩
  · refine h.members_induction (motive := fun s cs => ∃ s' mid more next,
      Reads (key.andThen (member s)) cs s' mid ∧ Reads (separator '\x7d') mid more next ∧
        (more = false ∧ t = s' ∧ rest = next ∨
          more = true ∧ Reads (members key member s') next t rest)) ?_ ?_
    · exact fun s cs mid hmember hmark =>
        ⟨t, mid, false, rest, hmember, hmark, .inl ⟨rfl, rfl, rfl⟩⟩
    · exact fun s cs s' mid next hmember hmark hothers _ =>
        ⟨s', mid, true, next, hmember, hmark, .inr ⟨rfl, hothers⟩⟩
  · rintro ⟨s', mid, _, next, hmember, hmark, ⟨rfl, rfl, rfl⟩ | ⟨rfl, hothers⟩⟩
    · exact hmember.members_last hmark
    · exact hmember.members_cons hmark hothers

theorem reads_array_iff {item : Reader α} {values : List α} : Reads (array item) cs values rest ↔
    Reads (spaced (expect ']')) cs () rest ∧ values = [] ∨
      closes? ']' cs = none ∧ Reads (items item) cs values rest := by
  rw [← closes?_eq_some_iff, Reads, array]
  cases closes? ']' cs with
  | none => simp [Reads]
  | some done => cases done; simp [Reading.map]; grind

theorem reads_object_iff {key : Reader String} {member : σ → String → Reader σ} {s t : σ} :
    Reads (object key member s) cs t rest ↔
      Reads (spaced (expect '\x7d')) cs () rest ∧ t = s ∨
        closes? '\x7d' cs = none ∧ Reads (members key member s) cs t rest := by
  rw [← closes?_eq_some_iff, Reads, object]
  cases closes? '\x7d' cs with
  | none => simp [Reads]
  | some done => cases done; simp [Reading.map]; grind

/-- An object that is not closed at once is its members. -/
theorem reads_object_iff_members {key : Reader String} {member : σ → String → Reader σ} {s t : σ}
    (h : closes? '\x7d' cs = none) :
    Reads (object key member s) cs t rest ↔ Reads (members key member s) cs t rest := by
  rw [Reads, object, h, Reads]

end Rows

/-- A whole text holds what is read, and nothing but space behind it. -/
theorem readAll_eq_ok_iff {p : Reader α} {text : String} {a : α} :
    readAll p text = .ok a ↔ ∃ rest, Reads p text.toList a rest ∧ skipSpace rest = [] := by
  refine ⟨fun h => ?_, fun ⟨rest, h, hrest⟩ => h.readAll hrest⟩
  rw [readAll] at h
  cases hp : p text.toList with
  | error fault => rw [hp] at h; cases h
  | ok r =>
    rw [hp] at h
    change (if skipSpace r.rest = [] then _ else _) = _ at h
    split at h
    · next hrest => cases h; exact ⟨r.rest, ⟨r.shorter, hp⟩, hrest⟩
    · cases h

end PlayerText.Json
