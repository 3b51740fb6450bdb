import PlayerText.Proofs.Display.Interpreter

/-!
# Every text has a format

Doubling a `%` does not take its meaning away, for the second one is read again. What does is a
directive for the title: every item has a title, so the first group is shown, and in a group a `%`
is a character like any other. Written so, every text is the text of some format.

* `percentDirective`, `literal`: a `%` as a directive, and a text as a format.
* `interpret_closed`: a directive whose groups are closed shows one of them, whatever follows it.
* `interpret_percentDirective`: the directive of a `%` shows a `%`.
* `evaluate_compile_literal`: the format of a text shows the text, of every item with metadata.
-/

namespace PlayerText.Display

open Text

/-- A directive that shows a `%`. -/
def percentDirective : List Char := "%title\x7b%\x7d\x7b\x7d\x7b\x7d".toList

/-- The format of a text: each `%` is written as its directive, and all else stands as it is. -/
def literal (text : String) : String :=
  String.ofList (text.toList.flatMap fun c => if c = '%' then percentDirective else [c])

section Directives

variable {metadata : Metadata} {displayName : String} {medium : Medium}
  {key tag audio video : List Char}

/-- A directive whose groups are closed ends with the third one, even if a brace follows. -/
theorem interpret_closed (hne : key ≠ []) (hkey : '{' ∉ key) (hhead : key.head? ≠ some '%')
    (htag : '}' ∉ tag) (haudio : '}' ∉ audio) (hvideo : '}' ∉ video) (rest : List Char) :
    interpret metadata displayName medium (closedDirective key tag audio video ++ rest) =
      interpretGroup metadata displayName (String.ofList key)
          (chosen metadata medium (String.ofList key) tag audio video) ++
        interpret metadata displayName medium rest := by
  rw [closedDirective_append,
    interpret_directive hne hkey hhead (.closed htag haudio hvideo rest)]

/-- The first group is shown, since every item has a title, and it holds no marker. -/
theorem interpret_percentDirective (rest : List Char) :
    interpret metadata displayName medium (percentDirective ++ rest) =
      '%' :: interpret metadata displayName medium rest := by
  have hspelled : percentDirective = closedDirective titleKey.toList ['%'] [] [] := by decide
  have hchosen : chosen metadata medium (String.ofList titleKey.toList) ['%'] [] [] = ['%'] :=
    if_pos (.inr rfl)
  have hgroup : interpretGroup metadata displayName (String.ofList titleKey.toList) ['%'] =
      ['%'] := interpretGroup_char (by decide) (by decide)
  rw [hspelled, interpret_closed (by decide) (by decide) (by decide) (by decide) (by decide)
    (by decide), hchosen, hgroup]
  rfl

/-- Character by character, the format of a text shows the text. -/
theorem interpret_literal (cs : List Char) :
    interpret metadata displayName medium
      (cs.flatMap fun c => if c = '%' then percentDirective else [c]) = cs := by
  induction cs with
  | nil => exact interpret_nil
  | cons c cs ih =>
    rw [List.flatMap_cons]
    by_cases hc : c = '%'
    · subst hc
      rw [if_pos rfl, interpret_percentDirective, ih]
    · rw [if_neg hc, List.singleton_append, interpret_char hc, ih]

end Directives

/-- A text without a `%` is its own format. -/
theorem literal_eq_self {text : String} (h : '%' ∉ text.toList) : literal text = text := by
  have hkept : ∀ c ∈ text.toList, (if c = '%' then percentDirective else [c]) = [c] := by
    intro c hc
    exact if_neg (ne_of_mem_of_not_mem hc h)
  rw [literal, List.flatMap_congr hkept, List.flatMap_singleton', String.ofList_toList]

/-- Every text can be written as a format: compiled, it shows the text of every item with metadata,
whatever braces, markers and `%` the text holds. A text without a `%` is written as it stands. -/
theorem evaluate_compile_literal (text displayName : String) (metadata : Metadata)
    (medium : Medium) (h : metadata.isEmpty = false) :
    (Tree.compile (literal text)).evaluate metadata displayName medium = text ∧
      ('%' ∉ text.toList → literal text = text) := by
  refine ⟨?_, literal_eq_self⟩
  rw [Tree.evaluate, h, if_neg Bool.false_ne_true]
  have hshown := toList_render_compile ⟨metadata, displayName, medium⟩ (literal text)
  rw [literal, String.toList_ofList, interpret_literal] at hshown
  exact String.toList_injective hshown

/-- A text that looks like a directive, of an item without a title, and one with an open brace. -/
theorem evaluate_compile_literal_directive :
    let metadata := Metadata.empty.set "artist" "Band"
    let text := "100%\x7b#\x7d%%artist\x7b$"
    metadata.isEmpty = false ∧
      (Tree.compile (literal text)).evaluate metadata "song.mp3" .audio = text ∧
      '%' ∉ "\x7b#$\x7d".toList ∧ literal "\x7b#$\x7d" = "\x7b#$\x7d" := by
  have h : (Metadata.empty.set "artist" "Band").isEmpty = false := by
    simp [Metadata.isEmpty, Metadata.set]
  have hplain : '%' ∉ "\x7b#$\x7d".toList := by decide
  exact ⟨h, (evaluate_compile_literal _ _ _ _ h).1, hplain,
    (evaluate_compile_literal _ "song.mp3" _ .audio h).2 hplain⟩

end PlayerText.Display
