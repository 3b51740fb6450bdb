import Std.Data.ExtTreeMap

/-!
# Metadata of an item

A finite map from keys such as `title` or `artist` to texts. Keys are kept as they are given, and a
key with an empty text is present all the same. Two maps are equal exactly when they give the same
text for every key, however they were built.

* `set`, `erase`, `remove`, `ofPairs`: building a map; of several texts for a key the last counts.
* `get?`, `has`, `size`, `isEmpty`, `toPairs`: looking at it.
* `get?_set`, `get?_erase`, `get?_ofPairs`: what a key has after each of them.
* `ext`: a map is determined by what its keys have.
-/

namespace PlayerText

/-- The texts known about an item, each under its key. -/
structure Metadata where
  /-- The map itself, in the order of the keys' characters. -/
  entries : Std.ExtTreeMap String String
  deriving DecidableEq

namespace Metadata

/-- Nothing is known. -/
def empty : Metadata := ⟨∅⟩

instance : Inhabited Metadata := ⟨empty⟩

/-- The text under a key. -/
def get? (m : Metadata) (key : String) : Option String := m.entries[key]?

/-- Whether a key is present, be its text empty or not. -/
def has (m : Metadata) (key : String) : Bool := m.entries.contains key

/-- The map with `value` under `key`. -/
def set (m : Metadata) (key value : String) : Metadata := ⟨m.entries.insert key value⟩

/-- The map without `key`. -/
def erase (m : Metadata) (key : String) : Metadata := ⟨m.entries.erase key⟩

/-- Takes a key out of the map: what it had, and the map without it. -/
def remove (m : Metadata) (key : String) : Option String × Metadata := (m.get? key, m.erase key)

/-- The map of some pairs of a key and its text. -/
def ofPairs (pairs : List (String × String)) : Metadata :=
  pairs.foldl (fun m p => m.set p.1 p.2) empty

/-- How many keys are present. -/
def size (m : Metadata) : Nat := m.entries.size

/-- Whether no key is present. -/
def isEmpty (m : Metadata) : Bool := m.entries.isEmpty

/-- The pairs of a key and its text, by the keys' code points. -/
def toPairs (m : Metadata) : List (String × String) := m.entries.toList

@[ext] theorem ext {a b : Metadata} (h : ∀ key, a.get? key = b.get? key) : a = b := by
  cases a
  cases b
  congr 1
  exact Std.ExtTreeMap.ext_getElem? h

@[simp] theorem get?_empty (key : String) : empty.get? key = none := by simp [get?, empty]

@[simp] theorem get?_set (m : Metadata) (key value k : String) :
    (m.set key value).get? k = if key = k then some value else m.get? k := by
  simp [get?, set, Std.ExtTreeMap.getElem?_insert]

@[simp] theorem get?_erase (m : Metadata) (key k : String) :
    (m.erase key).get? k = if key = k then none else m.get? k := by
  simp [get?, erase, Std.ExtTreeMap.getElem?_erase]

theorem get?_foldl_set (pairs : List (String × String)) (m : Metadata) (k : String) :
    (pairs.foldl (fun m p => m.set p.1 p.2) m).get? k = (pairs.reverse.lookup k).or (m.get? k) := by
  induction pairs generalizing m with
  | nil => simp
  | cons p rest ih =>
    obtain ⟨key, value⟩ := p
    rw [List.foldl_cons, ih, List.reverse_cons, List.lookup_append, Option.or_assoc, get?_set]
    by_cases h : key = k
    · rw [if_pos h, h, List.lookup_cons_self, Option.some_or]
    · rw [if_neg h, List.lookup_cons, beq_eq_false_iff_ne.2 (Ne.symm h), List.lookup_nil,
        Option.none_or]

/-- The last pair for a key decides. -/
theorem get?_ofPairs (pairs : List (String × String)) (k : String) :
    (ofPairs pairs).get? k = pairs.reverse.lookup k := by
  simp [ofPairs, get?_foldl_set]

@[simp] theorem isEmpty_set (m : Metadata) (key value : String) :
    (m.set key value).isEmpty = false := by
  simp [isEmpty, set]

@[simp] theorem has_eq (m : Metadata) (key : String) : m.has key = (m.get? key).isSome := by
  simp [get?, has]

end Metadata

end PlayerText
