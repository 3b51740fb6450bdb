import PlayerText.Metadata.Json
import PlayerText.Proofs.Display.Literal
import PlayerText.Proofs.Display.Shape
import PlayerText.Proofs.Json.Number
import PlayerText.Proofs.Json.Object
import PlayerText.Proofs.Metadata.Run

/-!
# Metadata of any JSON object

Metadata that are made from an object keep each of its keys. The last member with a name decides
what is under it, and that a value has no text of its own, as null and the containers have none, does
not take its key away: a directive for the key still shows its first group.

* `ShownText`: the text that a value in writing shows.
* `shownText_of_reads`, `ShownText.eq_text`: a value that was read has that text, and no other.
* `exists_isText_of_shownText`: what a number shows is a number again.
* `lastMember?`, `get?_ofJson_object`: under a name stands what its last member shows.
* `keyFormat`, `evaluate_keyFormat`: a directive that shows what is under a key.
* `ofJsonText_shows_members`: what the metadata of a JSON text are, and what is shown of them.
-/

namespace PlayerText.Metadata

open Json

variable {v r : List Char} {t : String} {value : Value} {depth : Nat}

/-! ## The text of a value -/

/-- The text that a value in writing gives its key: a string gives its text and a number its text in
the shortest form, which is the number as it is written if that is an integer of 64 bits. -/
inductive ShownText : List Char → String → Prop where
  | null : ShownText ['n', 'u', 'l', 'l'] ""
  | true : ShownText ['t', 'r', 'u', 'e'] "true"
  | false : ShownText ['f', 'a', 'l', 's', 'e'] "false"
  | container (kind : Container) {v : List Char} : v.head? = some kind.opening → ShownText v ""
  | string {v : List Char} {text : String} : StringText v text → ShownText v text
  | integer {n : Int} : -(Nat.pow 2 63 : Int) ≤ n → n < Nat.pow 2 64 →
      ShownText (toString n).toList (toString n)
  | number {l : Literal} {v : List Char} {x : Json.Number} : l.IsText v → l.number? = some x →
      ShownText v x.text

theorem exists_valueBy (depth : Nat) : ∃ array object, Json.value depth = valueBy array object := by
  cases depth <;> exact ⟨_, _, rfl⟩

/-- Behind the space in front of a value, its kind is told by its first character. -/
theorem readsValue_of_reads (hv : ValueText v) (space : Space)
    (h : Reads (Json.value depth) (space.1 ++ (v ++ r)) value r) :
    ∃ array object, ReadsValue array object (v ++ r) value r := by
  obtain ⟨array, object, hdepth⟩ := exists_valueBy depth
  rw [hdepth, reads_valueBy_iff] at h
  obtain ⟨c, tail, rfl, hc, -⟩ := hv.exists_cons
  rw [List.cons_append, skipSpace_append_cons space.2 hc] at h
  exact ⟨array, object, h⟩

/-- A value that was read has the text that its writing shows. -/
theorem shownText_of_reads (hv : ValueText v) (space : Space)
    (h : Reads (Json.value depth) (space.1 ++ (v ++ r)) value r) : ShownText v value.text := by
  obtain ⟨array, object, h⟩ := readsValue_of_reads hv space h
  have hcontainer : ∀ (kind : Container) {cs}, v ++ r = kind.opening :: cs → ShownText v "" := by
    intro kind cs hcs
    obtain ⟨c, tail, rfl, -, -⟩ := hv.exists_cons
    exact .container kind (congrArg some (List.cons.inj hcs).1)
  generalize hcs : v ++ r = cs at h
  cases h with
  | null =>
    have hword : v = ['n', 'u', 'l', 'l'] := List.append_cancel_right hcs
    exact hword ▸ .null
  | true =>
    have hword : v = ['t', 'r', 'u', 'e'] := List.append_cancel_right hcs
    exact hword ▸ .true
  | false =>
    have hword : v = ['f', 'a', 'l', 's', 'e'] := List.append_cancel_right hcs
    exact hword ▸ .false
  | string hs =>
    obtain ⟨spelled, hspelled, rfl⟩ := reads_string_iff.mp hs
    have hquoted : v ++ r = '"' :: (spelled ++ ['"']) ++ r := by rw [hcs]; simp
    exact .string ⟨spelled, hspelled, List.append_cancel_right hquoted⟩
  | number _ hn =>
    obtain ⟨l, mid, hl, hnumber⟩ := hn.of_bind
    obtain ⟨w, hw, hwcs⟩ := hl.literal_isText
    split at hnumber
    · next x hx =>
      obtain ⟨rfl, rfl⟩ := hnumber.of_ret
      rw [hwcs] at hcs
      rw [List.append_cancel_right hcs]
      exact .number hw hx
    · exact hnumber.not_fail.elim
  | array => exact hcontainer .array hcs
  | object => exact hcontainer .object hcs

/-- It has no other. -/
theorem ShownText.eq_text (h : ShownText v t) (hends : EndsNumber r) (hv : ValueText v)
    (space : Space) (hread : Reads (Json.value depth) (space.1 ++ (v ++ r)) value r) :
    value.text = t := by
  obtain ⟨array, object, hread⟩ := readsValue_of_reads hv space hread
  have hnumber : ∀ {l : Literal} {x : Json.Number}, l.IsText v → l.number? = some x →
      value.text = x.text := by
    intro l x hl hx
    generalize hcs : v ++ r = cs at hread
    cases hread with
    | number _ hn =>
      obtain ⟨l', mid, hl', hnext⟩ := hn.of_bind
      rw [← hcs] at hl'
      obtain ⟨rfl, rfl⟩ := hl'.unique (hl.reads hends)
      rw [hx] at hnext
      obtain ⟨rfl, -⟩ := hnext.of_ret
      rfl
    | _ =>
      obtain ⟨c, tail, rfl, hc⟩ := hl.exists_cons
      obtain ⟨rfl, -⟩ := List.cons.inj hcs
      exact absurd hc (by decide)
  cases h with
  | null =>
    cases hread with
    | null => rfl
    | number hc => exact absurd hc (by decide)
  | true =>
    cases hread with
    | true => rfl
    | number hc => exact absurd hc (by decide)
  | false =>
    cases hread with
    | false => rfl
    | number hc => exact absurd hc (by decide)
  | container kind hopening =>
    obtain ⟨tail, rfl⟩ := List.head?_eq_some_iff.mp hopening
    cases kind with
    | array =>
      cases hread with
      | array => rfl
      | number hc => exact absurd hc (by decide)
    | object =>
      cases hread with
      | object => rfl
      | number hc => exact absurd hc (by decide)
  | string hs =>
    obtain ⟨spelled, hspelled, rfl⟩ := hs
    cases hread with
    | string hs =>
      have hread : Reads Json.string ((spelled ++ ['"']) ++ r) t r :=
        reads_string_iff.mpr ⟨spelled, hspelled, by simp⟩
      exact (hs.unique hread).1
    | number hc => exact absurd hc (by decide)
  | integer hlow hhigh =>
    obtain ⟨l, hl, hn⟩ := exists_literal_of_int hlow hhigh
    rw [hnumber hl hn, Json.Number.text_integer]
  | number hl hx => exact hnumber hl hx

/-- What a number shows is a number in writing again. -/
theorem exists_isText_of_shownText {l : Literal} (hl : l.IsText v) (h : ShownText v t) :
    ∃ written : Literal, written.IsText t.toList := by
  obtain ⟨c, r, hcons, hc⟩ := hl.exists_cons
  have hhead : ∀ d ∈ v.head?, d = '-' ∨ d.isDigit = true := by
    rintro d hd
    rw [hcons] at hd
    cases hd
    exact hc
  cases h with
  | null | true | false => exact absurd (hhead _ rfl) (by decide)
  | container kind hopening => exact absurd (hhead _ hopening) (by cases kind <;> decide)
  | string hs =>
    obtain ⟨spelled, -, rfl⟩ := hs
    exact absurd (hhead _ rfl) (by decide)
  | integer hlow hhigh =>
    obtain ⟨written, htext, -⟩ := exists_literal_of_int hlow hhigh
    exact ⟨written, htext⟩
  | number _ hx => exact Literal.exists_isText_text hx

/-! ## The members that count -/

/-- The last member with a name. -/
def lastMember? (ms : List Member) (name : String) : Option Member :=
  ms.reverse.find? fun m => m.name == name

section Members

variable {ms : List Member} {pairs : List (String × Value)} {text key : String}

/-- A name finds a member where it finds the value of the member. -/
theorem find?_of_readAs (h : List.Forall₂ (Member.ReadAs depth) ms pairs) (name : String) :
    (ms.find? fun m => m.name == name) = none ∧ pairs.lookup name = none ∨
      ∃ m v, (ms.find? fun m => m.name == name) = some m ∧ pairs.lookup name = some v ∧
        m.ReadAs depth (name, v) := by
  induction h with
  | nil => exact .inl ⟨rfl, rfl⟩
  | @cons m p ms pairs hfirst hothers ih =>
    obtain ⟨k, v⟩ := p
    obtain ⟨hk : k = m.name, hread⟩ := hfirst
    rw [List.find?_cons, List.lookup_cons, hk]
    by_cases hname : m.name = name
    · refine .inr ⟨m, v, ?_, ?_, hname.symm, hread⟩
      · rw [beq_iff_eq.mpr hname]
      · rw [beq_iff_eq.mpr hname.symm]
    · rw [beq_eq_false_iff_ne.mpr hname, beq_eq_false_iff_ne.mpr (Ne.symm hname)]
      exact ih

theorem lookup_map_text (pairs : List (String × Value)) (key : String) :
    (pairs.map fun p => (p.1, p.2.text)).lookup key = (pairs.lookup key).map Value.text := by
  induction pairs with
  | nil => rfl
  | cons p pairs ih =>
    rw [List.map_cons, List.lookup_cons, List.lookup_cons, ih]
    cases key == p.1 <;> rfl

/-- Under a name stands the one text that the value of its last member shows. -/
theorem get?_ofJson_object (htext : ObjectText text.toList ms) (h : Value.parse text = .ok value)
    (key : String) : lastMember? ms key = none ∧ (ofJson value).get? key = none ∨
      ∃ m t, lastMember? ms key = some m ∧ (ofJson value).get? key = some t ∧
        ∀ t', ShownText m.value t' ↔ t = t' := by
  obtain ⟨pairs, rfl, hread⟩ := htext.readAs_of_parse h
  rw [ofJson, get?_ofPairs, ← List.map_reverse, lookup_map_text, lastMember?]
  obtain ⟨hnone, hlookup⟩ | ⟨m, v, hsome, hlookup, -, after, hends, hv⟩ :=
    find?_of_readAs (List.forall₂_reverse_iff.mpr hread) key
  · exact .inl ⟨hnone, by rw [hlookup, Option.map_none]⟩
  · refine .inr ⟨m, v.text, hsome, by rw [hlookup, Option.map_some], fun t' => ⟨?_, ?_⟩⟩
    · exact fun hshown => hshown.eq_text hends m.valueText m.ahead hv
    · rintro rfl
      exact shownText_of_reads m.valueText m.ahead hv

theorem get?_ofJson_iff (htext : ObjectText text.toList ms) (h : Value.parse text = .ok value) :
    (ofJson value).get? key = some t ↔ ∃ m, lastMember? ms key = some m ∧ ShownText m.value t := by
  obtain ⟨hlast, hget⟩ | ⟨m, t', hlast, hget, hshown⟩ := get?_ofJson_object htext h key
  · simp [hlast, hget]
  · simp [hlast, hget, hshown]

theorem get?_ofJson_eq_none_iff (htext : ObjectText text.toList ms)
    (h : Value.parse text = .ok value) :
    (ofJson value).get? key = none ↔ lastMember? ms key = none := by
  obtain ⟨hlast, hget⟩ | ⟨m, t', hlast, hget, hshown⟩ := get?_ofJson_object htext h key
  · simp [hlast, hget]
  · simp [hlast, hget]

theorem lastMember?_eq_none_iff : lastMember? ms key = none ↔ ∀ m ∈ ms, m.name ≠ key := by
  simp [lastMember?]

end Members

/-! ## What is shown of a key -/

section Directive

open Display

variable {key audio video displayName : String} {medium : Medium} {metadata : Metadata}

/-- A text that a group shows as it is. -/
def IsVerbatim (text : String) : Prop :=
  '\x7d' ∉ text.toList ∧ '#' ∉ text.toList ∧ '$' ∉ text.toList

/-- The format that shows what is under a key, or a text by the medium. -/
def keyFormat (key audio video : String) : String :=
  "%" ++ key ++ "\x7b#\x7d\x7b" ++ audio ++ "\x7d\x7b" ++ video ++ "\x7d"

theorem interpretGroup_plain {cs : List Char} (hproperty : '#' ∉ cs) (hname : '$' ∉ cs) :
    interpretGroup metadata displayName key cs = cs := by
  induction cs with
  | nil => rfl
  | cons c cs ih =>
    obtain ⟨hc, hcs⟩ := not_or.mp (mt List.mem_cons.mpr hproperty)
    obtain ⟨hc', hcs'⟩ := not_or.mp (mt List.mem_cons.mpr hname)
    rw [interpretGroup_char (Ne.symm hc) (Ne.symm hc'), ih hcs hcs']

/-- What the format of a key shows. -/
theorem evaluate_keyFormat (h : metadata.isEmpty = false) (hkey : IsKey key) (haudio : IsVerbatim audio)
    (hvideo : IsVerbatim video) :
    (Tree.compile (keyFormat key audio video)).evaluate metadata displayName medium =
      match metadata.get? key with
      | some t => t
      | none => if key = titleKey then displayName else
        match medium with
        | .audio => audio
        | .video => video := by
  have hformat : (keyFormat key audio video).toList =
      closedDirective key.toList ['#'] audio.toList video.toList ++ [] := by
    simp [keyFormat, closedDirective]
  have hne : key.toList ≠ [] := fun hnil => hkey.ne_empty (String.toList_eq_nil_iff.mp hnil)
  apply String.toList_injective
  rw [Tree.evaluate_eq_render h, toList_render_compile, hformat,
    interpret_closed hne hkey.no_brace hkey.no_percent (by decide) haudio.1 hvideo.1,
    String.ofList_toList, interpret_nil, List.append_nil]
  change interpretGroup metadata displayName key
    (chosen metadata medium key ['#'] audio.toList video.toList) = _
  have hshown : interpretGroup metadata displayName key ['#'] = valueOf metadata displayName key :=
    (interpretGroup_property (by decide)).trans (List.append_nil _)
  rw [chosen, titleKey]
  cases hget : metadata.get? key with
  | some t =>
    have hhas : metadata.has key = true := by rw [Metadata.has_eq, hget]; rfl
    rw [if_pos (.inl hhas), hshown, valueOf, hget]
  | none =>
    have hhas : ¬metadata.has key = true := by rw [Metadata.has_eq, hget]; exact Bool.false_ne_true
    dsimp only
    by_cases htitle : key = "title"
    · rw [if_pos (.inr htitle), if_pos htitle, hshown, valueOf, hget]
      exact if_pos htitle
    · rw [if_neg (not_or.mpr ⟨hhas, htitle⟩), if_neg htitle]
      cases medium with
      | audio => exact interpretGroup_plain haudio.2.1 haudio.2.2
      | video => exact interpretGroup_plain hvideo.2.1 hvideo.2.2

end Directive

/-! ## Any JSON text -/

/-- The metadata in a JSON text. Of an object they have the names of its members as their keys, each
with the text of the last member of that name, and that is what the format of a key shows, be it an
empty text; a title that is missing is the display name. Of any other value nothing is known, and
so the display name is all that is shown. -/
theorem ofJsonText_shows_members {text : String} {metadata : Metadata}
    (h : ofJsonText text = .ok metadata) :
    (∀ ms, ObjectText text.toList ms →
      (∀ key, metadata.has key = true ↔ ∃ m ∈ ms, m.name = key) ∧
      (∀ key t, metadata.get? key = some t ↔
        ∃ m, lastMember? ms key = some m ∧ ShownText m.value t) ∧
      (ms ≠ [] → ∀ key audio video displayName medium,
        Display.IsKey key → IsVerbatim audio → IsVerbatim video →
        let shown :=
          (Display.Tree.compile (keyFormat key audio video)).evaluate metadata displayName medium
        (∀ m t, lastMember? ms key = some m → ShownText m.value t → shown = t) ∧
        ((∀ m ∈ ms, m.name ≠ key) → shown =
          if key = Display.titleKey then displayName else
            match medium with
            | .audio => audio
            | .video => video))) ∧
    ((¬∃ ms, ObjectText text.toList ms) → metadata = empty ∧
      ∀ format displayName medium,
        (Display.Tree.compile format).evaluate metadata displayName medium = displayName) := by
  have hvalue : ∃ value, Value.parse text = .ok value ∧ ofJson value = metadata := by
    rw [ofJsonText] at h
    cases hparse : Value.parse text with
    | error fault => rw [hparse] at h; cases h
    | ok value => rw [hparse] at h; cases h; exact ⟨value, rfl, rfl⟩
  obtain ⟨value, hparse, rfl⟩ := hvalue
  constructor
  · intro ms hms
    have hget : ∀ key t, (ofJson value).get? key = some t ↔
        ∃ m, lastMember? ms key = some m ∧ ShownText m.value t :=
      fun key t => get?_ofJson_iff hms hparse
    have hhas : ∀ key, (ofJson value).has key = true ↔ ∃ m ∈ ms, m.name = key := by
      intro key
      rw [has_eq, ← Option.ne_none_iff_isSome, Ne, get?_ofJson_eq_none_iff hms hparse,
        lastMember?_eq_none_iff]
      simp
    refine ⟨hhas, fun key t => get?_ofJson_iff hms hparse, ?_⟩
    intro hne key audio video displayName medium hkey haudio hvideo shown
    have hnonempty : (ofJson value).isEmpty = false := by
      obtain ⟨m, ms, rfl⟩ := List.exists_cons_of_ne_nil hne
      have hm : (ofJson value).has m.name = true := (hhas m.name).mpr ⟨m, List.mem_cons_self, rfl⟩
      rw [Bool.eq_false_iff]
      intro hempty
      rw [has_eq, (isEmpty_iff _).mp hempty m.name] at hm
      exact Bool.false_ne_true hm
    have hshown : shown = _ := evaluate_keyFormat hnonempty hkey haudio hvideo
    refine ⟨fun m t hm ht => ?_, fun hnone => ?_⟩
    · rw [hshown, (get?_ofJson_iff hms hparse).mpr ⟨m, hm, ht⟩]
    · rw [hshown, (get?_ofJson_eq_none_iff hms hparse).mpr (lastMember?_eq_none_iff.mpr hnone)]
  · intro hnone
    have hempty : ofJson value = empty := by
      cases value with
      | object pairs => exact absurd (exists_objectText_of_parse hparse) hnone
      | _ => rfl
    refine ⟨hempty, fun format displayName medium => ?_⟩
    rw [hempty]
    rfl

/-- A title that is null, a key whose last value is an integer and another that is missing; and a
text that is no object. -/
theorem ofJsonText_shows_members_null :
    let text := "\x7b\"title\":null,\"n\":[],\"n\":-7\x7d"
    let metadata := ofPairs [("title", ""), ("n", "-7")]
    let shown := fun key =>
      (Display.Tree.compile (keyFormat key "a" "v")).evaluate metadata "song.mp3" .audio
    ofJsonText text = .ok metadata ∧ (∃ ms, ms ≠ [] ∧ ObjectText text.toList ms) ∧
      metadata.get? "n" = some "-7" ∧ metadata.has "album" = false ∧
      shown "title" = "" ∧ shown "n" = "-7" ∧ shown "album" = "a" ∧
      ofJsonText "[\x7b\x7d]" = .ok empty ∧ ¬∃ ms, ObjectText "[\x7b\x7d]".toList ms := by
  intro text metadata shown
  have h : ofJsonText text = .ok metadata := by decide +kernel
  have harray : ofJsonText "[\x7b\x7d]" = .ok empty := by decide +kernel
  have hint : toString (-7 : Int) = "-7" := by decide +kernel
  have hnew : ShownText "-7".toList "-7" := hint ▸ .integer (by decide) (by decide)
  obtain ⟨l, hl, -⟩ := exists_literal_of_int (by decide : -(Nat.pow 2 63 : Int) ≤ -7) (by decide)
  rw [hint] at hl
  let title := Member.plain "title" (by decide) (.scalar .null)
  let old := Member.plain "n" (by decide) (.empty .array ⟨[], rfl⟩)
  let new := Member.plain "n" (by decide) (.scalar (.number hl))
  have hms : ObjectText text.toList [title, old, new] :=
    ⟨⟨[], rfl⟩, ⟨[], rfl⟩, ⟨[], rfl⟩, by
      simp [text, Member.row, Member.text, Label.text, Member.plain, title, old, new,
        Container.opening, Container.close]⟩
  have hnone : ¬∃ ms, ObjectText "[\x7b\x7d]".toList ms := by
    rintro ⟨ms, before, inside, behind, htext⟩
    have hhead := congrArg skipSpace htext
    rw [skipSpace_append_cons before.2 (by decide)] at hhead
    cases hhead
  obtain ⟨hhas, hget, hshown⟩ := (ofJsonText_shows_members h).1 _ hms
  have hformat := fun key hkey => hshown (List.cons_ne_nil _ _) key "a" "v" "song.mp3" .audio hkey
    ⟨by decide, by decide, by decide⟩ ⟨by decide, by decide, by decide⟩
  have halbum : ∀ m ∈ [title, old, new], m.name ≠ "album" := by simp [title, old, new, Member.plain]
  refine ⟨h, ⟨_, List.cons_ne_nil _ _, hms⟩, (hget _ _).mpr ⟨new, rfl, hnew⟩, ?_, ?_, ?_, ?_,
    ((ofJsonText_shows_members harray).2 hnone).1 ▸ harray, hnone⟩
  · rw [Bool.eq_false_iff, Ne, hhas]
    rintro ⟨m, hm, hname⟩
    exact halbum m hm hname
  · exact (hformat "title" ⟨by decide, by decide, by decide⟩).1 title "" rfl .null
  · exact (hformat "n" ⟨by decide, by decide, by decide⟩).1 new "-7" rfl hnew
  · exact (hformat "album" ⟨by decide, by decide, by decide⟩).2 halbum

end PlayerText.Metadata
