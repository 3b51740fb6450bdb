import Mathlib.Data.Finset.Card
import PlayerText.Display.Tree
import PlayerText.Proofs.Metadata.Json

/-!
# Metadata over whole runs

Texts are put under keys, keys are taken out, and all is replaced by something that was given or
read, in any order. What a step does is said once, for one key: it gives the key a text, takes the
key out, or does not touch it. The metadata after a run are told by these effects alone.

* `Step`, `perform`, `after`: what is done with metadata, and what comes of it.
* `Step.pairs?`, `Step.effect?`: the pairs that replace all the others, and what a step does to one
  key.
* `get?_perform`, `get?_foldl_perform`: a key after one step, and after a run.
* `exists_keys`, `isEmpty_iff`: the keys that are present.
* `after_is_map`: metadata are a finite map over whole runs.
-/

namespace PlayerText.Metadata

open Json

/-- Something that is done with metadata. -/
inductive Step where
  /-- A text is put under a key, in the map at hand or in one that is handed on. -/
  | set (key value : String)
  /-- A key is taken out. -/
  | remove (key : String)
  /-- All keys are taken out. -/
  | clear
  /-- Some pairs of a key and a text take the place of all others. -/
  | ofPairs (pairs : List (String × String))
  /-- A map takes the place of all that was there. -/
  | ofMap (map : Std.ExtTreeMap String String)
  /-- The members of a JSON value take the place of all that was there. -/
  | ofJson (text : String)
  /-- The members of an object of strings take the place of all that was there. -/
  | read (text : String)

/-- What has been read takes the place of the metadata. Where nothing could be read they stay. -/
def replaced (m : Metadata) : Except JsonFault Metadata → Except JsonFault (Option String) × Metadata
  | .ok other => (.ok none, other)
  | .error fault => (.error fault, m)

/-- What a step answers, and the metadata after it. -/
def perform (m : Metadata) : Step → Except JsonFault (Option String) × Metadata
  | .set key value => (.ok none, m.set key value)
  | .remove key => Prod.map .ok id (m.remove key)
  | .clear => (.ok none, empty)
  | .ofPairs pairs => (.ok none, ofPairs pairs)
  | .ofMap map => (.ok none, ⟨map⟩)
  | .ofJson text => m.replaced (ofJsonText text)
  | .read text => m.replaced (Metadata.read text)

/-- The metadata after some steps. At first there are none. -/
def after (steps : List Step) : Metadata := steps.foldl (fun m step => (m.perform step).2) empty

/-! ## What a step does to a key -/

/-- The members of an object, each with the text of its value; another value has none. -/
def pairsOf : Value → List (String × String)
  | .object members => members.map fun m => (m.1, m.2.text)
  | _ => []

namespace Step

/-- The pairs that take the place of all others. A text that cannot be read gives none. -/
def pairs? : Step → Option (List (String × String))
  | set _ _ | remove _ => none
  | clear => some []
  | ofPairs pairs => some pairs
  | ofMap map => some map.toList
  | ofJson text => (Value.parse text).toOption.map pairsOf
  | read text =>
    match Metadata.read text with
    | .ok _ => (Value.parse text).toOption.map pairsOf
    | .error _ => none

/-- What a step leaves under a key, if it touches the key: the text that it gives, or nothing. Of
several pairs for the key the last one counts. -/
def effect? (key : String) (step : Step) : Option (Option String) :=
  match step with
  | set k value => if k = key then some (some value) else none
  | remove k => if k = key then some none else none
  | replacing => replacing.pairs?.map fun pairs => pairs.reverse.lookup key

end Step

section Effects

variable {m : Metadata} {steps : List Step}

theorem ofJson_eq (v : Value) : ofJson v = ofPairs (pairsOf v) := by
  cases v <;> rfl

theorem ofPairs_toList (map : Std.ExtTreeMap String String) : ofPairs map.toList = ⟨map⟩ :=
  ofPairs_of_perm (m := ⟨map⟩) (.refl _)

/-- What a step leaves under a key. -/
theorem get?_perform (m : Metadata) (step : Step) (key : String) :
    (m.perform step).2.get? key = (step.effect? key).getD (m.get? key) := by
  cases step with
  | set k value => by_cases h : k = key <;> simp [perform, Step.effect?, h]
  | remove k => by_cases h : k = key <;> simp [perform, remove, Step.effect?, h]
  | clear => exact get?_empty key
  | ofPairs pairs => exact get?_ofPairs pairs key
  | ofMap map =>
    have hmap : (m.perform (.ofMap map)).2 = ofPairs map.toList := (ofPairs_toList map).symm
    rw [hmap, get?_ofPairs]
    rfl
  | ofJson text =>
    cases hparse : Value.parse text with
    | error fault =>
      simp [perform, replaced, ofJsonText, Step.effect?, Step.pairs?, hparse, Except.map,
        Except.toOption]
    | ok v =>
      simp [perform, replaced, ofJsonText, Step.effect?, Step.pairs?, hparse, Except.map,
        Except.toOption, ofJson_eq, get?_ofPairs]
  | read text =>
    cases hread : Metadata.read text with
    | error fault => simp [perform, replaced, Step.effect?, Step.pairs?, hread]
    | ok other =>
      obtain ⟨members, hparse, rfl⟩ := exists_parse_of_read hread
      simp [perform, replaced, Step.effect?, Step.pairs?, hread, hparse, Except.toOption,
        ofJson_eq, get?_ofPairs]

/-- The last step that touches a key decides what is under it. -/
theorem get?_foldl_perform (m : Metadata) (steps : List Step) (key : String) :
    (steps.foldl (fun m step => (m.perform step).2) m).get? key =
      (steps.filterMap (Step.effect? key)).getLastD (m.get? key) := by
  induction steps generalizing m with
  | nil => rfl
  | cons step steps ih =>
    rw [List.foldl_cons, ih, get?_perform]
    cases heffect : step.effect? key with
    | none => rw [List.filterMap_cons_none heffect, Option.getD_none]
    | some left => rw [List.filterMap_cons_some heffect, List.getLastD_cons, Option.getD_some]

/-- A step that fails leaves the metadata as they are. -/
theorem snd_perform_of_error {m : Metadata} {step : Step} {fault : JsonFault}
    (h : (m.perform step).1 = .error fault) : (m.perform step).2 = m := by
  have hreplaced : ∀ result, (m.replaced result).1 = .error fault → (m.replaced result).2 = m := by
    rintro (cause | other) hresult
    · rfl
    · cases hresult
  cases step with
  | set => cases h
  | remove => cases h
  | clear => cases h
  | ofPairs => cases h
  | ofMap => cases h
  | ofJson text => exact hreplaced _ h
  | read text => exact hreplaced _ h

end Effects

/-! ## The keys that are present -/

section Keys

variable (m : Metadata)

/-- The size is the number of the keys that are present. -/
theorem exists_keys : ∃ keys : Finset String, (∀ key, key ∈ keys ↔ m.has key = true) ∧
    m.size = keys.card := by
  refine ⟨(m.toPairs.map Prod.fst).toFinset, fun key => ?_, ?_⟩
  · rw [List.mem_toFinset, List.mem_map, has_eq, Option.isSome_iff_exists]
    constructor
    · rintro ⟨⟨k, value⟩, hmem, rfl⟩
      exact ⟨value, mem_toPairs_iff.mp hmem⟩
    · rintro ⟨value, hvalue⟩
      exact ⟨(key, value), mem_toPairs_iff.mpr hvalue, rfl⟩
  · rw [List.toFinset_card_of_nodup m.nodup_keys_toPairs, List.length_map]
    exact Std.ExtTreeMap.length_toList.symm

theorem isEmpty_iff : m.isEmpty = true ↔ ∀ key, m.get? key = none := by
  constructor
  · intro h key
    have hentries : m.entries = ∅ := by simpa [isEmpty] using h
    simp [get?, hentries]
  · intro h
    have hempty : m = empty := ext fun key => (h key).trans (get?_empty key).symm
    rw [hempty]
    rfl

end Keys

/-- Metadata are a finite map over whole runs. The last step that touches a key decides what is
under it; a key is present exactly if there is something under it, be it an empty text, and that is
what it gives when it is taken out; the keys that are present are counted, each once. A step that
fails changes nothing. Metadata are the same exactly when each key has the same text in both, and
then they are shown alike. -/
theorem after_is_map (steps : List Step) :
    let m := after steps
    (∀ key, m.get? key = (steps.filterMap (Step.effect? key)).getLastD none) ∧
      (∀ key, m.has key = true ↔ ∃ value, m.get? key = some value) ∧
      (∀ key, (m.perform (.remove key)).1 = .ok (m.get? key)) ∧
      (∃ keys : Finset String, (∀ key, key ∈ keys ↔ m.has key = true) ∧ m.size = keys.card) ∧
      (m.isEmpty = true ↔ ∀ key, m.has key = false) ∧
      (∀ step fault, (m.perform step).1 = .error fault → (m.perform step).2 = m) ∧
      ∀ steps', let m' := after steps'
        (m = m' ↔ ∀ key, m.get? key = m'.get? key) ∧
        ((∀ key, m.get? key = m'.get? key) → ∀ format displayName medium,
          (Display.Tree.compile format).evaluate m displayName medium =
            (Display.Tree.compile format).evaluate m' displayName medium) := by
  intro m
  refine ⟨fun key => ?_, fun key => ?_, fun key => rfl, m.exists_keys, ?_,
    fun step fault => snd_perform_of_error, fun steps' => ⟨?_, ?_⟩⟩
  · have hrun := get?_foldl_perform empty steps key
    rwa [get?_empty] at hrun
  · rw [has_eq, Option.isSome_iff_exists]
  · simp [isEmpty_iff]
  · exact ⟨fun h key => h ▸ rfl, ext⟩
  · intro h format displayName medium
    rw [ext h]

/-- A reading that fails between two that do not, a key that comes twice in a text, and another run
to the same map. -/
theorem after_is_map_failed :
    let steps : List Step :=
      [.ofJson "\x7b\"a\":1,\"b\":null,\"a\":\x7b\x7d\x7d", .read "[]", .remove "b", .set "c" ""]
    let steps' : List Step := [.ofPairs [("a", "x"), ("c", ""), ("a", "")]]
    let tree := Display.Tree.compile "%c\x7b[#]\x7d\x7ba\x7d\x7bv\x7d"
    let m := after steps
    m.get? "a" = some "" ∧ m.get? "b" = none ∧ m = after steps' ∧
      (m.perform (.read "[]")).1 = .error .mismatched ∧ (m.perform (.read "[]")).2 = m ∧
      tree.evaluate m "song.mp3" .audio = tree.evaluate (after steps') "song.mp3" .audio := by
  intro steps steps' tree m
  obtain ⟨hget, -, -, -, -, hfailed, hsame⟩ := after_is_map steps
  have hfault : (m.perform (.read "[]")).1 = .error .mismatched := by decide +kernel
  have heq : m = after steps' := by decide +kernel
  refine ⟨(hget "a").trans ?_, (hget "b").trans ?_, heq, hfault, hfailed _ _ hfault,
    (hsame steps').2 ((hsame steps').1.mp heq) _ _ _⟩
  · decide +kernel
  · decide +kernel

end PlayerText.Metadata
