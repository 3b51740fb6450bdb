import PlayerText.Proofs.Json.Spelling
import PlayerText.Proofs.Json.Value

/-!
# Strings in writing and in reading

Whatever a text holds, the string that is written for it is one of the spellings of the text, and so
it is read back: quotes, backslashes and control characters from their escapes, and all else as it
stands.

* `charText_escapeChar`, `spelling_flatMap_escapeChar`: an escaped character, and all of them.
* `reads_string`: a quoted text is read as that text.
* `reads_stringValue`, `reads_key`, `Reads.afterColon`: the two sides of a member.
-/

namespace PlayerText.Json

/-! ## Escapes -/

theorem hexValue?_hexDigit : ∀ n < 16, hexValue? (hexDigit n) = some n := by decide

/-- A control character is named by its number. -/
theorem unicodeText_control {c : Char} (h : c.toNat < 0x20) :
    UnicodeText ['0', '0', hexDigit (c.toNat / 16), hexDigit (c.toNat % 16)] c := by
  have hdigits : HexText ['0', '0', hexDigit (c.toNat / 16), hexDigit (c.toNat % 16)] c.toNat := by
    have hvalue : ((0 * 16 + 0) * 16 + c.toNat / 16) * 16 + c.toNat % 16 = c.toNat := by omega
    have hzero := hexValue?_hexDigit 0 (by decide)
    have htext := HexText.intro hzero hzero
      (hexValue?_hexDigit (c.toNat / 16) (by omega)) (hexValue?_hexDigit (c.toNat % 16) (by omega))
    rwa [hvalue] at htext
  have hlow : isLowSurrogate c.toNat = false := by
    simp only [isLowSurrogate, Bool.and_eq_false_iff, decide_eq_false_iff_not]
    omega
  have hhigh : isHighSurrogate c.toNat = false := by
    simp only [isHighSurrogate, Bool.and_eq_false_iff, decide_eq_false_iff_not]
    omega
  have hnamed := UnicodeText.single hdigits hlow hhigh
  rwa [Char.ofNat_toNat] at hnamed

/-- An escaped character is that character in writing. -/
theorem charText_escapeChar (c : Char) : CharText UnicodeText (escapeChar c) c := by
  unfold escapeChar
  split
  · exact .short rfl
  · exact .short rfl
  · exact .short rfl
  · exact .short rfl
  · exact .short rfl
  · exact .short rfl
  · exact .short rfl
  · next hquote hbackslash _ _ _ _ _ =>
    split
    · next hcontrol => exact .unicode (unicodeText_control hcontrol)
    · next hcontrol => exact .plain (fun h => hquote h) (fun h => hbackslash h) hcontrol

theorem spelling_flatMap_escapeChar (cs : List Char) :
    Spelling UnicodeText (cs.flatMap escapeChar) cs := by
  induction cs with
  | nil => exact .nil
  | cons c cs ih => exact .cons (charText_escapeChar c) ih

/-! ## Strings -/

section Strings

variable {α : Type} {space rest rest' : List Char}

/-- A quoted text is read as that text. -/
theorem reads_string (text : String) (rest : List Char) :
    Reads string (text.toList.flatMap escapeChar ++ '"' :: rest) text rest :=
  reads_string_iff.mpr ⟨_, spelling_flatMap_escapeChar text.toList, rfl⟩

theorem toList_quote_append (text : String) (rest : List Char) :
    (quote text).toList ++ rest = '"' :: (text.toList.flatMap escapeChar ++ '"' :: rest) := by
  simp [quote, quoteChars]

/-- A quoted text is read where the value has to be a string. -/
theorem reads_stringValue (text : String) (hspace : space.all isSpace = true)
    (rest : List Char) :
    Reads stringValue (space ++ ((quote text).toList ++ rest)) text rest := by
  rw [toList_quote_append]
  exact reads_stringValue_iff.mpr
    ⟨_, skipSpace_append_cons hspace (by decide) _, reads_string text rest⟩

/-- A quoted key is read after the space in front of it. -/
theorem reads_key (name : String) (hspace : space.all isSpace = true) (rest : List Char) :
    Reads key (space ++ ((quote name).toList ++ rest)) name rest :=
  reads_key_iff.mpr (reads_stringValue name hspace rest)

/-- What stands behind the colon is read. -/
theorem Reads.afterColon {p : Reader α} {a : α} (h : Reads p rest a rest') :
    Reads (Json.afterColon p) (':' :: rest) a rest' := by
  have hcolon : Reads (Json.spaced (expect ':')) ([] ++ ':' :: rest) () rest :=
    (reads_expect ':' rest).spaced rfl (by decide)
  exact hcolon.andThen h

end Strings

end PlayerText.Json
