import PlayerText.Json.Value
import PlayerText.Proofs.Json.Inversion

/-!
# Values by their first characters

Behind the space in front of a value stands the character that tells its kind.

* `reads_opening_iff`: a reader that asks for one character at once.
* `reads_stringValue_iff`: a value that has to be a string.
* `ReadsValue`, `reads_valueBy_iff`: what each kind of value is read from.
* `Reads.value_of_stringValue`: a string is read as a value of any type.
* `reads_key_iff`, `Reads.of_afterColon`: the name of a member, and what stands behind it.
-/

namespace PlayerText.Json

variable {α β σ : Type} {cs rest : List Char}

/-- A reader that asks for one character at once and fails without it. -/
theorem reads_opening_iff {p : Reader α} {a : α} {c : Char} {fault : List Char → JsonFault} :
    Reads (fun cs => if cs.head? = some c then (expect c).andThen (fun _ => p) cs
      else .error (fault cs)) cs a rest ↔ ∃ r, cs = c :: r ∧ Reads p r a rest := by
  constructor
  · rintro ⟨shorter, h⟩
    dsimp only at h
    split at h
    · obtain ⟨_, mid, hopen, hp⟩ := Reads.of_andThen ⟨shorter, h⟩
      exact ⟨mid, hopen.of_expect, hp⟩
    · cases h
  · rintro ⟨r, rfl, hp⟩
    obtain ⟨shorter, h⟩ := hp.after_expect c
    exact ⟨shorter, (if_pos rfl).trans h⟩

theorem reads_stringValue_iff {s : String} : Reads stringValue cs s rest ↔
    ∃ r, skipSpace cs = '"' :: r ∧ Reads string r s rest := by
  rw [stringValue, reads_spaced_iff, reads_opening_iff]

/-! ## Kinds of values -/

/-- What a value is read from: a word, or a character that tells the kind of what follows. -/
inductive ReadsValue (array : Reader (List Value)) (object : Reader (List (String × Value))) :
    List Char → Value → List Char → Prop where
  | null (rest : List Char) : ReadsValue array object ('n' :: 'u' :: 'l' :: 'l' :: rest) .null rest
  | true (rest : List Char) :
      ReadsValue array object ('t' :: 'r' :: 'u' :: 'e' :: rest) (.bool true) rest
  | false (rest : List Char) :
      ReadsValue array object ('f' :: 'a' :: 'l' :: 's' :: 'e' :: rest) (.bool false) rest
  | string {r rest : List Char} {s : String} : Reads string r s rest →
      ReadsValue array object ('"' :: r) (.string s) rest
  | number {c : Char} {r rest : List Char} {n : Number} : c = '-' ∨ c.isDigit = Bool.true →
      Reads number (c :: r) n rest → ReadsValue array object (c :: r) (.number n) rest
  | array {r rest : List Char} {items : List Value} : Reads array r items rest →
      ReadsValue array object ('[' :: r) (.array items) rest
  | object {r rest : List Char} {members : List (String × Value)} : Reads object r members rest →
      ReadsValue array object ('\x7b' :: r) (.object members) rest

section Kinds

variable {array : Reader (List Value)} {object : Reader (List (String × Value))} {v : Value}

theorem ReadsValue.of_valueBy (h : Reads (valueBy array object) cs v rest) :
    ReadsValue array object (skipSpace cs) v rest := by
  have hvalue := reads_spaced_iff.mp h
  generalize skipSpace cs = ds at hvalue
  obtain ⟨shorter, h⟩ := hvalue
  cases ds with
  | nil => cases h
  | cons c r =>
    dsimp only at h
    split at h
    · next hc =>
      obtain ⟨rfl, rfl⟩ := ReadsTail.of_keyword ⟨shorter, h⟩
      exact hc ▸ .null rest
    split at h
    · next hc =>
      obtain ⟨rfl, rfl⟩ := ReadsTail.of_keyword ⟨shorter, h⟩
      exact hc ▸ .true rest
    split at h
    · next hc =>
      obtain ⟨rfl, rfl⟩ := ReadsTail.of_keyword ⟨shorter, h⟩
      exact hc ▸ .false rest
    split at h
    · next hc =>
      obtain ⟨s, hs, rfl⟩ := (Reads.of_afterHead h).of_map
      exact hc ▸ .string hs
    split at h
    · next hc =>
      obtain ⟨n, hn, rfl⟩ := Reads.of_map ⟨shorter, h⟩
      exact .number hc hn
    split at h
    · next hc =>
      obtain ⟨items, hitems, rfl⟩ := (Reads.of_afterHead h).of_map
      exact hc ▸ .array hitems
    split at h
    · next hc =>
      obtain ⟨members, hmembers, rfl⟩ := (Reads.of_afterHead h).of_map
      exact hc ▸ .object hmembers
    · cases h

/-- A digit or a sign is no first character of another kind of value. -/
theorem ne_of_number {c d : Char} (h : c = '-' ∨ c.isDigit = true) (hd : d.isDigit = false)
    (hsign : d ≠ '-') : c ≠ d := by
  rintro rfl
  rcases h with h | h
  · exact hsign h
  · rw [hd] at h
    cases h

theorem reads_valueBy_iff : Reads (valueBy array object) cs v rest ↔
    ReadsValue array object (skipSpace cs) v rest := by
  refine ⟨ReadsValue.of_valueBy, fun h => reads_spaced_iff.mpr ?_⟩
  generalize skipSpace cs = ds at h
  cases h with
  | null =>
    obtain ⟨shorter, hread⟩ := readsTail_keyword Value.null ['u', 'l', 'l'] rest
    refine ⟨shorter, ?_⟩
    dsimp only
    rw [if_pos rfl]
    exact hread
  | true =>
    obtain ⟨shorter, hread⟩ := readsTail_keyword (Value.bool true) ['r', 'u', 'e'] rest
    refine ⟨shorter, ?_⟩
    dsimp only
    rw [if_neg (by decide), if_pos rfl]
    exact hread
  | false =>
    obtain ⟨shorter, hread⟩ := readsTail_keyword (Value.bool false) ['a', 'l', 's', 'e'] rest
    refine ⟨shorter, ?_⟩
    dsimp only
    rw [if_neg (by decide), if_neg (by decide), if_pos rfl]
    exact hread
  | string hs =>
    obtain ⟨shorter, hread⟩ := (hs.map Value.string).afterHead '"'
    refine ⟨shorter, ?_⟩
    dsimp only
    rw [if_neg (by decide), if_neg (by decide), if_neg (by decide), if_pos rfl]
    exact hread
  | number hc hn =>
    obtain ⟨shorter, hread⟩ := hn.map Value.number
    refine ⟨shorter, ?_⟩
    dsimp only
    rw [if_neg (ne_of_number hc (by decide) (by decide)),
      if_neg (ne_of_number hc (by decide) (by decide)),
      if_neg (ne_of_number hc (by decide) (by decide)),
      if_neg (ne_of_number hc (by decide) (by decide)), if_pos hc]
    exact hread
  | array hitems =>
    obtain ⟨shorter, hread⟩ := (hitems.map Value.array).afterHead '['
    refine ⟨shorter, ?_⟩
    dsimp only
    rw [if_neg (by decide), if_neg (by decide), if_neg (by decide), if_neg (by decide),
      if_neg (by decide), if_pos rfl]
    exact hread
  | object hmembers =>
    obtain ⟨shorter, hread⟩ := (hmembers.map Value.object).afterHead '\x7b'
    refine ⟨shorter, ?_⟩
    dsimp only
    rw [if_neg (by decide), if_neg (by decide), if_neg (by decide), if_neg (by decide),
      if_neg (by decide), if_neg (by decide), if_pos rfl]
    exact hread

end Kinds

/-! ## Strings and members -/

/-- A string is read as a value, however deep values may be nested. -/
theorem Reads.value_of_stringValue {s : String} (h : Reads stringValue cs s rest) (depth : Nat) :
    Reads (value depth) cs (.string s) rest := by
  obtain ⟨r, hcs, hs⟩ := reads_stringValue_iff.mp h
  cases depth <;> exact reads_valueBy_iff.mpr (hcs ▸ .string hs)

/-- A key is a string. -/
theorem reads_key_iff {name : String} :
    Reads key cs name rest ↔ Reads stringValue cs name rest := by
  rw [reads_stringValue_iff]
  constructor
  · intro h
    obtain ⟨_, mid, hquote, hname⟩ := h.of_andThen
    exact ⟨mid, (reads_spaced_iff.mp hquote).of_expect, hname⟩
  · rintro ⟨r, hcs, hname⟩
    exact (reads_spaced_iff.mpr (hcs ▸ reads_expect '"' r)).andThen hname

/-- Where members are, the object is not closed at once. -/
theorem Reads.object_of_members {member : σ → String → Reader σ} {s t : σ}
    (h : Reads (members key member s) cs t rest) : Reads (Json.object key member s) cs t rest := by
  have hkey : ∃ s' mid, Reads (key.andThen (member s)) cs s' mid :=
    h.members_induction (motive := fun s cs => ∃ s' mid, Reads (key.andThen (member s)) cs s' mid)
      (fun _ _ mid hmember _ => ⟨t, mid, hmember⟩)
      (fun _ _ s' mid _ hmember _ _ _ => ⟨s', mid, hmember⟩)
  obtain ⟨s', mid, hmember⟩ := hkey
  obtain ⟨name, _, hname, -⟩ := hmember.of_andThen
  obtain ⟨r, hr, -⟩ := reads_stringValue_iff.mp (reads_key_iff.mp hname)
  have hquote : (skipSpace cs).head? ≠ some '\x7d' := by
    rw [hr, List.head?_cons, Ne, Option.some.injEq]
    decide
  exact (reads_object_iff_members (closes?_eq_none_iff.mpr hquote)).mpr h

theorem Reads.of_afterColon {p : Reader α} {a : α} (h : Reads (Json.afterColon p) cs a rest) :
    ∃ mid, Reads (Json.spaced (expect ':')) cs () mid ∧ Reads p mid a rest := by
  obtain ⟨_, mid, hcolon, hp⟩ := h.of_andThen
  exact ⟨mid, hcolon, hp⟩

end PlayerText.Json
