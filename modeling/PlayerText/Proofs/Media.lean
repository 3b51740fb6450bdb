import Mathlib.Data.List.Forall2
import PlayerText.Media
import PlayerText.Proofs.Text.Blank

/-!
# Reading the names of variants

Which texts name a variant is told without the reader: between blanks stands the variant's name,
each letter in either case. The reader accepts these texts and no others.

* `SameLetter`: a letter of ASCII in either case; `toLower_eq_iff`: lowering tells no more.
* `Denotes`: a text names a variant.
* `LawfulNamed`: names that consist of letters and can be told apart.
* `ReadsNames`: what reading names does, of an enumeration.
* `readsNames_variants`: the three enumerations are read so.
-/

namespace PlayerText.Named

open Text

/-! ## Letters in either case -/

/-- The same character, or the same ASCII letter in the other case. -/
inductive SameLetter : Char → Char → Prop where
  | same (c : Char) : SameLetter c c
  | upper {a b : Char} : a.isUpper = true → b.toNat = a.toNat + 32 → SameLetter a b
  | lower {a b : Char} : b.isUpper = true → a.toNat = b.toNat + 32 → SameLetter a b

section Letters

variable {a b c : Char}

theorem isUpper_iff : c.isUpper = true ↔ 65 ≤ c.toNat ∧ c.toNat ≤ 90 := by
  delta Char.isUpper
  rw [decide_eq_true_iff, ge_iff_le, UInt32.le_iff_toNat_le, UInt32.le_iff_toNat_le]
  rfl

theorem isLower_iff : c.isLower = true ↔ 97 ≤ c.toNat ∧ c.toNat ≤ 122 := by
  delta Char.isLower
  rw [Bool.and_eq_true, decide_eq_true_iff, decide_eq_true_iff, ge_iff_le,
    UInt32.le_iff_toNat_le, UInt32.le_iff_toNat_le]
  rfl

theorem isAlpha_iff : c.isAlpha = true ↔
    (65 ≤ c.toNat ∧ c.toNat ≤ 90) ∨ (97 ≤ c.toNat ∧ c.toNat ≤ 122) := by
  delta Char.isAlpha
  rw [Bool.or_eq_true, isUpper_iff, isLower_iff]

/-- Letters are no blanks. -/
theorem isBlank_of_isAlpha (h : c.isAlpha = true) : isBlank c = false := by
  rw [isAlpha_iff] at h
  simp only [isBlank, Bool.or_eq_false_iff, Bool.and_eq_false_iff, decide_eq_false_iff_not,
    beq_eq_false_iff_ne]
  omega

theorem toNat_toLower (c : Char) :
    c.toLower.toNat = if 65 ≤ c.toNat ∧ c.toNat ≤ 90 then c.toNat + 32 else c.toNat := by
  have hcapital : ('A'.val ≤ c.val ∧ c.val ≤ 'Z'.val) ↔ 65 ≤ c.toNat ∧ c.toNat ≤ 90 := by
    rw [UInt32.le_iff_toNat_le, UInt32.le_iff_toNat_le]
    rfl
  delta Char.toLower
  by_cases h : 65 ≤ c.toNat ∧ c.toNat ≤ 90
  · rw [dif_pos (hcapital.mpr h), if_pos h]
    exact Nat.mod_eq_of_lt (show c.toNat + 32 < 2 ^ 32 by omega)
  · rw [dif_neg (mt hcapital.mp h), if_neg h]

/-- Characters are the same in lower case if and only if they are one letter. -/
theorem toLower_eq_iff : a.toLower = b.toLower ↔ SameLetter a b := by
  rw [← Char.toNat_inj, toNat_toLower, toNat_toLower]
  constructor
  · intro h
    by_cases ha : a.isUpper = true <;> by_cases hb : b.isUpper = true
    · rw [if_pos (isUpper_iff.mp ha), if_pos (isUpper_iff.mp hb)] at h
      obtain rfl := Char.toNat_inj.mp (Nat.add_right_cancel h)
      exact .same a
    · rw [if_pos (isUpper_iff.mp ha), if_neg (mt isUpper_iff.mpr hb)] at h
      exact .upper ha h.symm
    · rw [if_neg (mt isUpper_iff.mpr ha), if_pos (isUpper_iff.mp hb)] at h
      exact .lower hb h
    · rw [if_neg (mt isUpper_iff.mpr ha), if_neg (mt isUpper_iff.mpr hb)] at h
      exact Char.toNat_inj.mp h ▸ .same a
  · intro h
    cases h with
    | same => rfl
    | upper ha hb =>
      have hcapital := isUpper_iff.mp ha
      rw [if_pos hcapital, if_neg (by omega), hb]
    | lower hb ha =>
      have hcapital := isUpper_iff.mp hb
      rw [if_neg (by omega), if_pos hcapital, ha]

/-- In the other case a letter is a letter. -/
theorem SameLetter.isAlpha (h : SameLetter a b) : a.isAlpha = b.isAlpha := by
  rw [Bool.eq_iff_iff, isAlpha_iff, isAlpha_iff]
  cases h with
  | same => rfl
  | upper ha hb =>
    have hcapital := isUpper_iff.mp ha
    omega
  | lower hb ha =>
    have hcapital := isUpper_iff.mp hb
    omega

theorem sameIgnoringCase_iff {s t : String} :
    sameIgnoringCase s t = true ↔ List.Forall₂ SameLetter s.toList t.toList := by
  have hletter : (fun a b : Char => a.toLower = b.toLower) = SameLetter :=
    funext₂ fun a b => propext toLower_eq_iff
  rw [sameIgnoringCase, beq_iff_eq, ← List.forall₂_eq_eq_eq, List.forall₂_map_left_iff,
    List.forall₂_map_right_iff, hletter]

end Letters

/-! ## Texts that name a variant -/

section Denotes

variable {α : Type} [Named α]

/-- A text names a variant: without the blanks around it, it is the variant's name, each letter in
either case. -/
def Denotes (text : String) (v : α) : Prop :=
  ∃ spelled, Trimmed text.toList spelled ∧ List.Forall₂ SameLetter (name v).toList spelled

/-- Every variant has a name of letters, and no two names differ in case alone. -/
class LawfulNamed (α : Type) [Named α] : Prop where
  mem_variants : ∀ v : α, v ∈ (variants : List α)
  name_ne_nil : ∀ v : α, (name v).toList ≠ []
  all_isAlpha : ∀ v : α, (name v).toList.all Char.isAlpha = true
  eq_of_same : ∀ v w : α, sameIgnoringCase (name v) (name w) = true → v = w

instance : LawfulNamed Medium where
  mem_variants := Medium.mem_variants
  name_ne_nil v := by cases v <;> decide
  all_isAlpha v := by cases v <;> decide
  eq_of_same v w := by cases v <;> cases w <;> decide

instance : LawfulNamed DisabledTrack where
  mem_variants := DisabledTrack.mem_variants
  name_ne_nil v := by cases v <;> decide
  all_isAlpha v := by cases v <;> decide
  eq_of_same v w := by cases v <;> cases w <;> decide

instance : LawfulNamed Subtitles where
  mem_variants := Subtitles.mem_variants
  name_ne_nil v := by cases v <;> decide
  all_isAlpha v := by cases v <;> decide
  eq_of_same v w := by cases v <;> cases w <;> decide

variable {text : String} {v w : α}

theorem denotes_iff :
    Denotes text v ↔ sameIgnoringCase (name v) (.ofList (trim text.toList)) = true := by
  rw [sameIgnoringCase_iff, String.toList_ofList]
  constructor
  · rintro ⟨spelled, htrim, hname⟩
    rwa [trim_eq_iff.mpr htrim]
  · exact fun h => ⟨_, trim_eq_iff.mp rfl, h⟩

variable [LawfulNamed α]

theorem Denotes.unique (hv : Denotes text v) (hw : Denotes text w) : v = w := by
  rw [denotes_iff, sameIgnoringCase, beq_iff_eq] at hv hw
  apply LawfulNamed.eq_of_same
  rw [sameIgnoringCase, beq_iff_eq, hv, hw]

/-- A text is read as the variant that it names. -/
theorem parse_eq_ok_iff : parse text = .ok v ↔ Denotes text v := by
  simp only [parse]
  split
  · next w hfind =>
    have hfound := List.find?_some hfind
    have hw : Denotes text w := denotes_iff.mpr hfound
    constructor
    · rintro ⟨⟩
      exact hw
    · exact fun hv => congrArg Except.ok (hw.unique hv)
  · next hfind =>
    refine iff_of_false (fun h => nomatch h) fun hv => ?_
    exact List.find?_eq_none.mp hfind v (LawfulNamed.mem_variants v) (denotes_iff.mp hv)

/-- The only error is that no variant is named, and it keeps the text. -/
theorem parse_eq_error_iff {e : Error} : (parse text : Except Error α) = .error e ↔
    e = .invalidValue text ∧ ∀ v : α, ¬Denotes text v := by
  constructor
  · intro h
    refine ⟨?_, fun v hv => ?_⟩
    · simp only [parse] at h
      split at h
      · cases h
      · cases h
        rfl
    · rw [parse_eq_ok_iff.mpr hv] at h
      cases h
  · rintro ⟨rfl, hnone⟩
    simp only [parse]
    split
    · next w hfind =>
      have hfound := List.find?_some hfind
      exact absurd (denotes_iff.mpr hfound) (hnone w)
    · rfl

theorem isAlpha_of_mem_name (v : α) : ∀ c ∈ (name v).toList, c.isAlpha = true :=
  List.all_eq_true.mp (LawfulNamed.all_isAlpha v)

/-- In either case a name consists of letters. -/
theorem isAlpha_of_spelled {letters spelled : List Char}
    (h : List.Forall₂ SameLetter letters spelled) (hletters : ∀ c ∈ letters, c.isAlpha = true) :
    ∀ c ∈ spelled, c.isAlpha = true := by
  induction h with
  | nil => exact hletters
  | cons hsame _ ih =>
    obtain ⟨hhead, htail⟩ := List.forall_mem_cons.mp hletters
    exact List.forall_mem_cons.mpr ⟨hsame.isAlpha ▸ hhead, ih htail⟩

/-- Between blanks a name in either case names its variant. -/
theorem denotes_padded {before after spelled : List Char} (hbefore : ∀ c ∈ before, isBlank c = true)
    (hafter : ∀ c ∈ after, isBlank c = true)
    (hspelled : List.Forall₂ SameLetter (name v).toList spelled) :
    Denotes (.ofList (before ++ (spelled ++ after))) v := by
  have hblank : ∀ c ∈ spelled, isBlank c = false := fun c hc =>
    isBlank_of_isAlpha (isAlpha_of_spelled hspelled (isAlpha_of_mem_name v) c hc)
  refine ⟨spelled, ⟨⟨before, after, String.toList_ofList, hbefore, hafter⟩, ?_, ?_⟩, hspelled⟩
  · exact fun c hc => hblank c (List.mem_of_mem_head? hc)
  · exact fun c hc => hblank c (List.mem_of_mem_getLast? hc)

/-- A text that names a variant is made of blanks, letters, and blanks again. -/
theorem Denotes.exists_letters (h : Denotes text v) : ∃ before spelled after,
    text.toList = before ++ (spelled ++ after) ∧ (∀ c ∈ before, isBlank c = true) ∧
      (∀ c ∈ after, isBlank c = true) ∧ spelled ≠ [] ∧ ∀ c ∈ spelled, c.isAlpha = true := by
  obtain ⟨spelled, ⟨⟨before, after, htext, hbefore, hafter⟩, -, -⟩, hspelled⟩ := h
  refine ⟨before, spelled, after, htext, hbefore, hafter, ?_, ?_⟩
  · rintro rfl
    exact LawfulNamed.name_ne_nil v (List.forall₂_nil_right_iff.mp hspelled)
  · exact isAlpha_of_spelled hspelled (isAlpha_of_mem_name v)

/-- Blanks alone name nothing. -/
theorem not_denotes_of_blank (h : ∀ c ∈ text.toList, isBlank c = true) : ¬Denotes text v := by
  intro hv
  obtain ⟨before, spelled, after, htext, -, -, hne, hletters⟩ := hv.exists_letters
  obtain ⟨c, hc⟩ := List.exists_mem_of_ne_nil _ hne
  have hblank := h c (by rw [htext]; simp [hc])
  rw [isBlank_of_isAlpha (hletters c hc)] at hblank
  cases hblank

/-- A text with a character that is neither a blank nor a letter of ASCII names nothing. -/
theorem not_denotes_of_foreign {c : Char} (hc : c ∈ text.toList) (hblank : isBlank c = false)
    (hletter : c.isAlpha = false) : ¬Denotes text v := by
  intro hv
  obtain ⟨before, spelled, after, htext, hbefore, hafter, -, hletters⟩ := hv.exists_letters
  rw [htext, List.mem_append, List.mem_append] at hc
  rcases hc with hc | hc | hc
  · exact Bool.false_ne_true (hblank.symm.trans (hbefore c hc))
  · exact Bool.false_ne_true (hletter.symm.trans (hletters c hc))
  · exact Bool.false_ne_true (hblank.symm.trans (hafter c hc))

/-- A text with a blank between other characters names nothing. -/
theorem not_denotes_of_gap {front back : List Char} {a b c : Char}
    (htext : text.toList = front ++ c :: back) (hc : isBlank c = true) (ha : a ∈ front)
    (hfront : isBlank a = false) (hb : b ∈ back) (hback : isBlank b = false) :
    ¬Denotes text v := by
  intro hv
  obtain ⟨before, spelled, after, hparts, hbefore, hafter, -, hletters⟩ := hv.exists_letters
  rw [htext] at hparts
  -- The blank stands neither among the blanks in front, for `a` stands before it, nor among those
  -- at the end, for `b` stands behind it.
  rcases List.append_eq_append_iff.mp hparts with ⟨x, rfl, -⟩ | ⟨x, rfl, hx⟩
  · exact Bool.false_ne_true (hfront.symm.trans (hbefore a (List.mem_append_left _ ha)))
  rcases List.append_eq_append_iff.mp hx with ⟨y, rfl, hy⟩ | ⟨y, rfl, hy⟩
  · exact Bool.false_ne_true (hback.symm.trans (hafter b (by rw [hy]; simp [hb])))
  cases y with
  | nil =>
    rw [List.nil_append] at hy
    exact Bool.false_ne_true (hback.symm.trans (hafter b (by rw [← hy]; simp [hb])))
  | cons d y =>
    obtain ⟨rfl, -⟩ := List.cons.inj hy
    have hletter := isBlank_of_isAlpha (hletters c (by simp))
    exact Bool.false_ne_true (hletter.symm.trans hc)

end Denotes

/-- Reading the names of an enumeration accepts exactly the names, between blanks and in either
case, and keeps what it does not accept in the error. -/
structure ReadsNames (α : Type) [Named α] : Prop where
  /-- A text is read as the variants that it names. -/
  accepts : ∀ (text : String) (v : α), parse text = .ok v ↔ Denotes text v
  /-- There is no error but one: nothing is named, and the text is kept as it was given. -/
  refuses : ∀ (text : String) (e : Error),
    (parse text : Except Error α) = .error e ↔ e = .invalidValue text ∧ ∀ v : α, ¬Denotes text v
  /-- No text names two variants. -/
  unique : ∀ (text : String) (v w : α), Denotes text v → Denotes text w → v = w
  /-- Every variant is read back from its name in either case with blanks around it. -/
  padded : ∀ (v : α) (before spelled after : List Char), (∀ c ∈ before, isBlank c = true) →
    (∀ c ∈ after, isBlank c = true) → List.Forall₂ SameLetter (name v).toList spelled →
      parse (.ofList (before ++ (spelled ++ after))) = .ok v
  /-- Blanks alone are refused. -/
  blank : ∀ text : String, (∀ c ∈ text.toList, isBlank c = true) →
    (parse text : Except Error α) = .error (.invalidValue text)
  /-- A character that is neither a blank nor a letter of ASCII is refused anywhere. -/
  foreign : ∀ text : String, ∀ c ∈ text.toList, isBlank c = false → c.isAlpha = false →
    (parse text : Except Error α) = .error (.invalidValue text)
  /-- A blank between other characters is refused. -/
  gap : ∀ (text : String) (front back : List Char) (a b c : Char),
    text.toList = front ++ c :: back → isBlank c = true → a ∈ front → isBlank a = false →
      b ∈ back → isBlank b = false →
        (parse text : Except Error α) = .error (.invalidValue text)

theorem ReadsNames.of_lawful (α : Type) [Named α] [LawfulNamed α] : ReadsNames α where
  accepts _ _ := parse_eq_ok_iff
  refuses _ _ := parse_eq_error_iff
  unique _ _ _ := Denotes.unique
  padded _ _ _ _ hbefore hafter hspelled :=
    parse_eq_ok_iff.mpr (denotes_padded hbefore hafter hspelled)
  blank _ h := parse_eq_error_iff.mpr ⟨rfl, fun _ => not_denotes_of_blank h⟩
  foreign _ _ hc hblank hletter :=
    parse_eq_error_iff.mpr ⟨rfl, fun _ => not_denotes_of_foreign hc hblank hletter⟩
  gap _ _ _ _ _ _ htext hc ha hfront hb hback :=
    parse_eq_error_iff.mpr ⟨rfl, fun _ => not_denotes_of_gap htext hc ha hfront hb hback⟩

/-- The types of media, the tracks that can be off and the states of the subtitles are read by their
names, and by nothing else. -/
theorem readsNames_variants :
    ReadsNames Medium ∧ ReadsNames DisabledTrack ∧ ReadsNames Subtitles :=
  ⟨.of_lawful Medium, .of_lawful DisabledTrack, .of_lawful Subtitles⟩

/-- A blank that is not in ASCII, and letters in both cases. -/
example : (parse "\u2003viDEO\t" : Except Error Medium) = .ok .video := by decide

end PlayerText.Named
