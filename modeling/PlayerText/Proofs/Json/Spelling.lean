import PlayerText.Proofs.Json.Grammar
import PlayerText.Proofs.Json.Inversion

/-!
# Strings in any spelling

A string is read exactly where there is one, however its characters are written, and it is read up
to its closing quote.

* `reads_hex4_iff`, `reads_unicodeEscape_iff`: what stands behind `\u`.
* `Matches`, `reads_stringItem_some_iff`, `reads_many_iff`: a character, and all of them.
* `reads_string_iff`, `reads_looseString_iff`: a whole string.
* `Spelling.loose`, `StringText.loose`: the string of a text is one.
* `stringText_plain`: a text without quotes, backslashes and control characters in quotes.
-/

namespace PlayerText.Json

variable {cs rest : List Char}

/-! ## Escapes -/

theorem reads_hexDigitReader_iff {n : Nat} : Reads hexDigitReader cs n rest ↔
    ∃ c, hexValue? c = some n ∧ cs = c :: rest := by
  constructor
  · rintro ⟨_, h⟩
    cases cs with
    | nil => cases h
    | cons c r =>
      rw [hexDigitReader] at h
      split at h
      · next n hn => cases h; exact ⟨c, hn, rfl⟩
      · cases h
  · rintro ⟨c, hc, rfl⟩
    exact ⟨Nat.lt_succ_self _, by rw [hexDigitReader, hc]; rfl⟩

/-- Four characters are at least four bytes. -/
theorem four_le_utf8ByteSize (a b c d : Char) : 4 ≤ (String.ofList [a, b, c, d]).utf8ByteSize := by
  have ha := a.utf8Size_pos
  have hb := b.utf8Size_pos
  have hc := c.utf8Size_pos
  have hd := d.utf8Size_pos
  simp only [String.ofList_cons, String.utf8ByteSize_append, String.utf8ByteSize_singleton]
  omega

theorem reads_hex4_iff {n : Nat} : Reads hex4 cs n rest ↔
    ∃ digits, HexText digits n ∧ cs = digits ++ rest := by
  constructor
  · rintro ⟨shorter, h⟩
    rw [hex4] at h
    split at h
    · cases h
    · obtain ⟨i, r₁, hi, h⟩ := Reads.of_andThen ⟨shorter, h⟩
      obtain ⟨j, r₂, hj, h⟩ := h.of_andThen
      obtain ⟨k, r₃, hk, h⟩ := h.of_andThen
      obtain ⟨l, hl, rfl⟩ := h.of_map
      obtain ⟨a, ha, rfl⟩ := reads_hexDigitReader_iff.mp hi
      obtain ⟨b, hb, rfl⟩ := reads_hexDigitReader_iff.mp hj
      obtain ⟨c, hc, rfl⟩ := reads_hexDigitReader_iff.mp hk
      obtain ⟨d, hd, rfl⟩ := reads_hexDigitReader_iff.mp hl
      exact ⟨_, .intro ha hb hc hd, rfl⟩
  · rintro ⟨_, @⟨a, b, c, d, i, j, k, l, ha, hb, hc, hd⟩, rfl⟩
    have hlong : ¬(String.ofList [a, b, c, d]).utf8ByteSize < 4 :=
      Nat.not_lt.mpr (four_le_utf8ByteSize a b c d)
    have hread : Reads (hexDigitReader.andThen fun a => hexDigitReader.andThen fun b =>
        hexDigitReader.andThen fun c => hexDigitReader.map fun d => ((a * 16 + b) * 16 + c) * 16 + d)
        ([a, b, c, d] ++ rest) (((i * 16 + j) * 16 + k) * 16 + l) rest := by
      refine (reads_hexDigitReader_iff.mpr ⟨a, ha, rfl⟩).andThen ?_
      refine (reads_hexDigitReader_iff.mpr ⟨b, hb, rfl⟩).andThen ?_
      refine (reads_hexDigitReader_iff.mpr ⟨c, hc, rfl⟩).andThen ?_
      exact (reads_hexDigitReader_iff.mpr ⟨d, hd, rfl⟩).map _
    obtain ⟨shorter, hread⟩ := hread
    exact ⟨shorter, (if_neg hlong).trans hread⟩

theorem reads_lowSurrogate_iff {high : Nat} {c : Char} : Reads (lowSurrogate high) cs c rest ↔
    ∃ digits low, HexText digits low ∧ isLowSurrogate low = true ∧ c = ofSurrogates high low ∧
      cs = '\\' :: 'u' :: (digits ++ rest) := by
  constructor
  · intro h
    obtain ⟨_, r₁, hslash, hescape⟩ := h.of_andThen
    obtain ⟨_, r₂, hu, hnumber⟩ := hescape.of_andThen
    obtain ⟨low, r₃, hlow, hpair⟩ := hnumber.of_bind
    obtain ⟨digits, hdigits, rfl⟩ := reads_hex4_iff.mp hlow
    rw [hslash.of_expect, hu.of_expect]
    split at hpair
    · next hsurrogate =>
      obtain ⟨hc, rfl⟩ := hpair.of_ret
      exact ⟨digits, low, hdigits, hsurrogate, hc, rfl⟩
    · exact hpair.not_fail.elim
  · rintro ⟨digits, low, hdigits, hlow, hc, rfl⟩
    rw [lowSurrogate, hc]
    refine (reads_expect '\\' _).andThen ((reads_expect 'u' _).andThen ?_)
    refine (reads_hex4_iff.mpr ⟨digits, hdigits, rfl⟩).bind ?_
    rw [if_pos hlow]
    exact readsTail_ret _ rest

theorem reads_unicodeEscape_iff {c : Char} : Reads unicodeEscape cs c rest ↔
    ∃ spelled, UnicodeText spelled c ∧ cs = spelled ++ rest := by
  constructor
  · intro h
    obtain ⟨n, mid, hn, hnext⟩ := h.of_bind
    obtain ⟨digits, hdigits, rfl⟩ := reads_hex4_iff.mp hn
    split at hnext
    · exact hnext.not_fail.elim
    split at hnext
    · next hhigh =>
      obtain ⟨ds, low, hds, hlow, hc, rfl⟩ := reads_lowSurrogate_iff.mp hnext.of_toTail
      rw [hc]
      exact ⟨_, .pair hdigits hhigh hds hlow, by simp⟩
    · next hlow hhigh =>
      obtain ⟨rfl, rfl⟩ := hnext.of_ret
      exact ⟨digits, .single hdigits (by simpa using hlow) (by simpa using hhigh), rfl⟩
  · rintro ⟨_, hspelled, rfl⟩
    cases hspelled with
    | single hdigits hlow hhigh =>
      refine (reads_hex4_iff.mpr ⟨_, hdigits, rfl⟩).bind ?_
      rw [hlow, hhigh]
      exact readsTail_ret _ rest
    | @pair digits ds high low hdigits hhigh hds hlow =>
      have hnot : isLowSurrogate high = false := by
        simp only [isHighSurrogate, isLowSurrogate, Bool.and_eq_true, decide_eq_true_eq,
          Bool.and_eq_false_iff, decide_eq_false_iff_not] at hhigh ⊢
        omega
      refine (reads_hex4_iff.mpr ⟨digits, hdigits, List.append_assoc _ _ _⟩).bind ?_
      rw [hnot, hhigh]
      exact (reads_lowSurrogate_iff.mpr ⟨ds, low, hds, hlow, rfl, rfl⟩).toTail

theorem reads_looseUnicodeEscape_iff {c : Char} : Reads looseUnicodeEscape cs c rest ↔
    ∃ spelled, LooseUnicodeText spelled c ∧ cs = spelled ++ rest := by
  constructor
  · intro h
    obtain ⟨n, hn, rfl⟩ := h.of_map
    obtain ⟨digits, hdigits, rfl⟩ := reads_hex4_iff.mp hn
    exact ⟨digits, .intro hdigits, rfl⟩
  · rintro ⟨_, ⟨hdigits⟩, rfl⟩
    exact (reads_hex4_iff.mpr ⟨_, hdigits, rfl⟩).map fun _ => '\x00'

/-! ## Characters -/

section Characters

variable {unicode : Reader Char} {Unicode : List Char → Char → Prop}

/-- The reader reads what may stand behind `\u`. -/
def Matches (unicode : Reader Char) (Unicode : List Char → Char → Prop) : Prop :=
  ∀ cs c rest, Reads unicode cs c rest ↔ ∃ spelled, Unicode spelled c ∧ cs = spelled ++ rest

theorem reads_escape_iff (hunicode : Matches unicode Unicode) {c : Char} :
    Reads (escape unicode) cs c rest ↔
      ∃ spelled, CharText Unicode ('\\' :: spelled) c ∧ cs = spelled ++ rest := by
  constructor
  · rintro ⟨shorter, h⟩
    cases cs with
    | nil => cases h
    | cons d r =>
      rw [escape] at h
      split at h
      · next hd =>
        obtain ⟨spelled, hspelled, rfl⟩ := (hunicode _ _ _).mp (Reads.of_afterHead h)
        exact ⟨'u' :: spelled, .unicode hspelled, by rw [hd]; rfl⟩
      · split at h
        · next e he => cases h; exact ⟨[d], .short he, rfl⟩
        · cases h
  · rintro ⟨spelled, hspelled, rfl⟩
    generalize hescaped : '\\' :: spelled = escaped at hspelled
    cases hspelled with
    | plain _ hbackslash =>
      obtain ⟨rfl, -⟩ := List.cons.inj hescaped
      exact absurd rfl hbackslash
    | @short d _ hd =>
      obtain ⟨-, rfl⟩ := List.cons.inj hescaped
      have hne : d ≠ 'u' := by
        rintro rfl
        cases hd
      change Reads (escape unicode) (d :: rest) c rest
      exact ⟨Nat.lt_succ_self _, by rw [escape, if_neg hne, hd]; rfl⟩
    | @unicode digits _ hdigits =>
      obtain ⟨-, rfl⟩ := List.cons.inj hescaped
      obtain ⟨shorter, hread⟩ := ((hunicode _ _ rest).mpr ⟨digits, hdigits, rfl⟩).afterHead 'u'
      change Reads (escape unicode) ('u' :: (digits ++ rest)) c rest
      exact ⟨shorter, by rw [escape, if_pos rfl, hread]⟩

theorem reads_stringItem_none_iff : Reads (stringItem unicode) cs none rest ↔ cs = '"' :: rest := by
  constructor
  · rintro ⟨shorter, h⟩
    cases cs with
    | nil => cases h
    | cons c r =>
      rw [stringItem] at h
      split at h
      · next hc => cases h; rw [hc]
      split at h
      · obtain ⟨d, -, hd⟩ := (Reads.of_afterHead h).of_map
        cases hd
      split at h
      · cases h
      · cases h
  · rintro rfl
    exact ⟨Nat.lt_succ_self _, by rw [stringItem, if_pos rfl]; rfl⟩

theorem reads_stringItem_some_iff (hunicode : Matches unicode Unicode) {c : Char} :
    Reads (stringItem unicode) cs (some c) rest ↔
      ∃ spelled, CharText Unicode spelled c ∧ cs = spelled ++ rest := by
  constructor
  · rintro ⟨shorter, h⟩
    cases cs with
    | nil => cases h
    | cons d r =>
      rw [stringItem] at h
      split at h
      · cases h
      split at h
      · next hd =>
        obtain ⟨e, he, hsome⟩ := (Reads.of_afterHead h).of_map
        cases hsome
        obtain ⟨spelled, hspelled, rfl⟩ := (reads_escape_iff hunicode).mp he
        exact ⟨'\\' :: spelled, hspelled, by rw [hd]; rfl⟩
      split at h
      · cases h
      · next hquote hbackslash hcontrol =>
        cases h
        exact ⟨[c], .plain hquote hbackslash hcontrol, rfl⟩
  · rintro ⟨_, hspelled, rfl⟩
    have hescape : ∀ spelled, CharText Unicode ('\\' :: spelled) c →
        Reads (stringItem unicode) ('\\' :: spelled ++ rest) (some c) rest := by
      intro spelled hspelled
      obtain ⟨shorter, hread⟩ :=
        (((reads_escape_iff hunicode).mpr ⟨spelled, hspelled, rfl⟩).map some).afterHead '\\'
      change Reads (stringItem unicode) ('\\' :: (spelled ++ rest)) (some c) rest
      exact ⟨shorter, by rw [stringItem, if_neg (by decide), if_pos rfl, hread]⟩
    cases hspelled with
    | plain hquote hbackslash hcontrol =>
      change Reads (stringItem unicode) (c :: rest) (some c) rest
      exact ⟨Nat.lt_succ_self _, by
        rw [stringItem, if_neg hquote, if_neg hbackslash, if_neg hcontrol]
        rfl⟩
    | short hd => exact hescape _ (.short hd)
    | unicode hdigits => exact hescape _ (.unicode hdigits)

/-- All characters up to the closing quote are read, each from its spelling. -/
theorem reads_many_iff (hunicode : Matches unicode Unicode) {text : List Char} :
    Reads (many (stringItem unicode)) cs text rest ↔
      ∃ spelled, Spelling Unicode spelled text ∧ cs = spelled ++ '"' :: rest := by
  constructor
  · intro h
    refine h.many_induction
      (motive := fun cs text => ∃ spelled, Spelling Unicode spelled text ∧
        cs = spelled ++ '"' :: rest) ?_ ?_
    · intro cs hend
      exact ⟨[], .nil, reads_stringItem_none_iff.mp hend⟩
    · rintro cs c _ text hc ⟨spelled, hspelled, rfl⟩
      obtain ⟨first, hfirst, rfl⟩ := (reads_stringItem_some_iff hunicode).mp hc
      exact ⟨first ++ spelled, .cons hfirst hspelled, (List.append_assoc _ _ _).symm⟩
  · rintro ⟨spelled, hspelled, rfl⟩
    induction hspelled with
    | nil => exact reads_many_nil (reads_stringItem_none_iff.mpr rfl)
    | cons hfirst _ ih =>
      rw [List.append_assoc]
      exact ((reads_stringItem_some_iff hunicode).mpr ⟨_, hfirst, rfl⟩).many_cons ih

end Characters

/-! ## Strings -/

/-- An escape that names a character has the form of an escape, and a pair is two of them. -/
theorem Spelling.loose {spelled text : List Char} (h : Spelling UnicodeText spelled text) :
    ∃ text, Spelling LooseUnicodeText spelled text := by
  induction h with
  | nil => exact ⟨[], .nil⟩
  | @cons first spelled _ c hfirst _ ih =>
    obtain ⟨text, ih⟩ := ih
    cases hfirst with
    | plain hquote hbackslash hcontrol => exact ⟨_, .cons (.plain hquote hbackslash hcontrol) ih⟩
    | short hc => exact ⟨_, .cons (.short hc) ih⟩
    | unicode hescape =>
      cases hescape with
      | single hdigits => exact ⟨_, .cons (.unicode (.intro hdigits)) ih⟩
      | @pair digits ds high low hhigh _ hlow _ =>
        have hpair := Spelling.cons (.unicode (.intro hhigh)) (.cons (.unicode (.intro hlow)) ih)
        exact ⟨_, by simpa using hpair⟩

/-- The string of a text is one. -/
theorem StringText.loose {v : List Char} {text : String} (h : StringText v text) :
    LooseStringText v := by
  obtain ⟨spelled, hspelled, rfl⟩ := h
  obtain ⟨text, hloose⟩ := hspelled.loose
  exact ⟨spelled, text, hloose, rfl⟩

/-- A character that stands for itself in a string. -/
def isPlain (c : Char) : Bool := c != '"' && c != '\\' && 0x20 ≤ c.toNat

theorem Spelling.plain {Unicode : List Char → Char → Prop} (h : cs.all isPlain = true) :
    Spelling Unicode cs cs := by
  induction cs with
  | nil => exact .nil
  | cons c cs ih =>
    simp only [List.all_cons, isPlain, Bool.and_eq_true, bne_iff_ne, decide_eq_true_eq] at h
    obtain ⟨⟨⟨hquote, hbackslash⟩, hcontrol⟩, hcs⟩ := h
    exact .cons (.plain hquote hbackslash (Nat.not_lt.mpr hcontrol)) (ih hcs)

/-- A text of such characters stands in quotes as it is. -/
theorem stringText_plain {text : String} (h : text.toList.all isPlain = true) :
    StringText ('"' :: (text.toList ++ ['"'])) text := ⟨text.toList, .plain h, rfl⟩

theorem reads_string_iff {text : String} : Reads string cs text rest ↔
    ∃ spelled, Spelling UnicodeText spelled text.toList ∧ cs = spelled ++ '"' :: rest := by
  have hmatches : Matches unicodeEscape UnicodeText := fun _ _ _ => reads_unicodeEscape_iff
  constructor
  · intro h
    obtain ⟨text, htext, rfl⟩ := h.of_map
    rw [String.toList_ofList]
    exact (reads_many_iff hmatches).mp htext
  · intro h
    have hread := ((reads_many_iff hmatches).mpr h).map String.ofList
    rwa [String.ofList_toList] at hread

theorem reads_looseString_iff : Reads looseString cs () rest ↔
    ∃ spelled text, Spelling LooseUnicodeText spelled text ∧ cs = spelled ++ '"' :: rest := by
  have hmatches : Matches looseUnicodeEscape LooseUnicodeText :=
    fun _ _ _ => reads_looseUnicodeEscape_iff
  constructor
  · intro h
    obtain ⟨text, htext, -⟩ := h.of_map
    obtain ⟨spelled, hspelled, hcs⟩ := (reads_many_iff hmatches).mp htext
    exact ⟨spelled, text, hspelled, hcs⟩
  · rintro ⟨spelled, text, hspelled, hcs⟩
    exact ((reads_many_iff hmatches).mpr ⟨spelled, hspelled, hcs⟩).map fun _ => ()

end PlayerText.Json
