import PlayerText.Proofs.Display.Interpreter

/-!
# Formats one after the other

A directive whose groups are all closed reads nothing behind its third group. A format that is made
of such directives, and of characters other than `%`, is complete: whatever is written behind it, a
fourth group or a `%` or the rest of a text, it is read as if it stood alone.

* `Complete`: the formats that are complete.
* `Complete.ofFormat_append`: behind a complete format, reading begins anew.
* `evaluate_compile_append`: a complete format and another one show what they show on their own, one
  after the other.
-/

namespace PlayerText.Display

/-- Formats in which each `%` begins a directive with three closed groups. -/
inductive Complete : List Char → Prop where
  | nil : Complete []
  | char {c : Char} {r : List Char} : c ≠ '%' → Complete r → Complete (c :: r)
  | directive {key tag audio video r : List Char} : key ≠ [] → '{' ∉ key → key.head? ≠ some '%' →
      '}' ∉ tag → '}' ∉ audio → '}' ∉ video → Complete r →
      Complete (closedDirective key tag audio video ++ r)

/-- Behind a complete format, reading begins anew. -/
theorem Complete.ofFormat_append {cs : List Char} (h : Complete cs) (rest : List Char) :
    Piece.ofFormat (cs ++ rest) = Piece.ofFormat cs ++ Piece.ofFormat rest := by
  induction h with
  | nil => rw [Piece.ofFormat_nil, List.nil_append, List.nil_append]
  | char hc _ ih => rw [List.cons_append, Piece.ofFormat_char hc, Piece.ofFormat_char hc, ih]; rfl
  | directive hne hkey hhead htag haudio hvideo _ ih =>
    rw [List.append_assoc, Piece.ofFormat_closed hne hkey hhead htag haudio hvideo,
      Piece.ofFormat_closed hne hkey hhead htag haudio hvideo, ih]
    rfl

/-- Pieces that are read one after the other show one after the other what they show, even if a text
runs from the first ones into the others. -/
theorem Chain.render_ofPieces_append (view : View) (pieces others : List Piece) :
    (ofPieces (pieces ++ others)).render view =
      (ofPieces pieces).render view ++ (ofPieces others).render view := by
  apply String.toList_injective
  rw [String.toList_append, toList_render_ofPieces, toList_render_ofPieces, toList_render_ofPieces,
    List.flatMap_append]

/-- A complete format with another one behind it shows what the two show on their own, one after the
other. -/
theorem evaluate_compile_append (format rest displayName : String) (metadata : Metadata)
    (medium : Medium) (h : metadata.isEmpty = false) (hcomplete : Complete format.toList) :
    (Tree.compile (format ++ rest)).evaluate metadata displayName medium =
      (Tree.compile format).evaluate metadata displayName medium ++
        (Tree.compile rest).evaluate metadata displayName medium := by
  have hroot : (Tree.compile (format ++ rest)).root =
      Chain.ofPieces (Piece.ofFormat format.toList ++ Piece.ofFormat rest.toList) := by
    rw [Tree.compile, String.toList_append, hcomplete.ofFormat_append]
  simp only [Tree.evaluate_eq_render h]
  rw [hroot, Chain.render_ofPieces_append]
  rfl

/-- Behind the third group stand a fourth brace, a `%` that is shown, and an open group. -/
theorem evaluate_compile_append_brace :
    let metadata := Metadata.empty.set "artist" "Band"
    let format := "by %artist\x7b#\x7d\x7b%\x7d\x7bv\x7d"
    let rest := "\x7b$\x7d%%title\x7b#"
    (metadata.isEmpty = false ∧ Complete format.toList) ∧
      (Tree.compile (format ++ rest)).evaluate metadata "song.mp3" .audio =
        (Tree.compile format).evaluate metadata "song.mp3" .audio ++
          (Tree.compile rest).evaluate metadata "song.mp3" .audio := by
  intro metadata format rest
  have h : metadata.isEmpty = false := Metadata.isEmpty_set _ _ _
  have hdirective : Complete "%artist\x7b#\x7d\x7b%\x7d\x7bv\x7d".toList :=
    @Complete.directive "artist".toList ['#'] ['%'] ['v'] [] (by decide) (by decide) (by decide)
      (by decide) (by decide) (by decide) .nil
  have hcomplete : Complete "by %artist\x7b#\x7d\x7b%\x7d\x7bv\x7d".toList :=
    @Complete.char 'b' _ (by decide) (@Complete.char 'y' _ (by decide)
      (@Complete.char ' ' _ (by decide) hdirective))
  exact ⟨⟨h, hcomplete⟩, evaluate_compile_append _ _ _ _ _ h hcomplete⟩

/-- A directive that lacks a group takes it from what is written behind it. -/
example :
    let metadata := Metadata.empty.set "album" "First"
    (Tree.compile ("%artist\x7b#\x7d" ++ "\x7ba\x7d")).evaluate metadata "song.mp3" .audio = "a" ∧
      (Tree.compile "%artist\x7b#\x7d").evaluate metadata "song.mp3" .audio = "" ∧
      (Tree.compile "\x7ba\x7d").evaluate metadata "song.mp3" .audio = "\x7ba\x7d" := by
  decide +kernel

end PlayerText.Display
