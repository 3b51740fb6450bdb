import Mathlib.Control.Monad.Basic
import Mathlib.Data.List.Basic
import PlayerText.Metadata.Json
import PlayerText.Proofs.Json.Text
import PlayerText.Proofs.Json.Value

/-!
# Metadata in writing and in reading

Metadata that are written are read back, in whatever order their keys are written. An object of
strings can be read for its strings or as any other JSON value, and both give the same metadata.

* `ofPairs_of_perm`: the pairs of metadata give the metadata, in any order.
* `reads_writeMember`, `reads_writeMembers`, `read_writePairs`: pairs that are written are read
  back.
* `memberOf_of_readMember`, `exists_members_of_readMember`: members that are read for their strings
  are members of the value.
* `exists_parse_of_read`: an object of strings is a value with the same metadata.
* `readings_agree`: both readings give back what was written, and they agree.
-/

namespace PlayerText.Metadata

open Json

variable {m m' : Metadata} {pairs : List (String × String)} {cs rest : List Char}

/-! ## Pairs in any order -/

/-- No key is there twice, so the order of the pairs makes no difference. -/
theorem lookup_eq_some_iff_mem {key value : String} (h : (pairs.map Prod.fst).Nodup) :
    pairs.lookup key = some value ↔ (key, value) ∈ pairs := by
  induction pairs with
  | nil => simp
  | cons p pairs ih =>
    obtain ⟨k, v⟩ := p
    obtain ⟨hk, hnodup⟩ := List.nodup_cons.mp h
    rw [List.lookup_cons, List.mem_cons, Prod.mk.injEq]
    by_cases hkey : key = k
    · subst hkey
      have hnot : (key, value) ∉ pairs := fun hmem => hk (List.mem_map.mpr ⟨_, hmem, rfl⟩)
      simp [hnot, eq_comm]
    · rw [beq_eq_false_iff_ne.mpr hkey, ih hnodup]
      simp [hkey]

theorem nodup_keys_toPairs (m : Metadata) : (m.toPairs.map Prod.fst).Nodup := by
  have hdistinct := Std.ExtTreeMap.distinct_keys_toList (t := m.entries)
  refine List.pairwise_map.mpr (hdistinct.imp fun h heq => h ?_)
  rw [heq]
  exact Std.ReflCmp.compare_self

theorem mem_toPairs_iff {key value : String} :
    (key, value) ∈ m.toPairs ↔ m.get? key = some value :=
  Std.ExtTreeMap.mem_toList_iff_getElem?_eq_some

/-- The pairs of metadata give the metadata, in any order. -/
theorem ofPairs_of_perm (h : pairs.Perm m.toPairs) : ofPairs pairs = m := by
  have hperm : pairs.reverse.Perm m.toPairs := (List.reverse_perm pairs).trans h
  have hnodup : (pairs.reverse.map Prod.fst).Nodup :=
    (hperm.map Prod.fst).nodup_iff.mpr m.nodup_keys_toPairs
  ext key value
  rw [get?_ofPairs, lookup_eq_some_iff_mem hnodup, hperm.mem_iff, mem_toPairs_iff]

/-! ## What is written is read back -/

/-- Some pairs as a JSON text without spaces, in the order of the pairs. -/
def writePairs (pairs : List (String × String)) : String :=
  "\x7b" ++ ",".intercalate (pairs.map writeMember) ++ "\x7d"

/-- A member in writing, with what follows it. -/
theorem toList_writeMember_append (p : String × String) (rest : List Char) :
    (writeMember p).toList ++ rest =
      [] ++ ((quote p.1).toList ++ ':' :: ([] ++ ((quote p.2).toList ++ rest))) := by
  simp [writeMember]

/-- A member is read as the text of its key. -/
theorem reads_writeMember (m : Metadata) (p : String × String) (rest : List Char) :
    Reads (key.andThen (readMember m)) ((writeMember p).toList ++ rest) (m.set p.1 p.2) rest := by
  rw [toList_writeMember_append]
  exact (reads_key p.1 rfl _).andThen ((reads_stringValue p.2 rfl rest).map (m.set p.1)).afterColon

/-- Some members, with commas between them. -/
def writeMembers (pairs : List (String × String)) : String :=
  ",".intercalate (pairs.map writeMember)

theorem toList_writeMembers_append (p q : String × String) (pairs : List (String × String))
    (rest : List Char) : (writeMembers (p :: q :: pairs)).toList ++ rest =
      (writeMember p).toList ++ ([] ++ ',' :: ((writeMembers (q :: pairs)).toList ++ rest)) := by
  simp [writeMembers, String.intercalate_cons_cons]

theorem reads_writeMembers (m : Metadata) (p : String × String) (pairs : List (String × String))
    (rest : List Char) :
    Reads (members key readMember m) ((writeMembers (p :: pairs)).toList ++ ([] ++ '\x7d' :: rest))
      ((p :: pairs).foldl (fun m p => m.set p.1 p.2) m) rest := by
  induction pairs generalizing m p with
  | nil =>
    exact (reads_writeMember m p _).members_last
      (reads_separator_close rfl (by decide) (by decide) rest)
  | cons q pairs ih =>
    rw [toList_writeMembers_append]
    exact (reads_writeMember m p _).members_cons (reads_separator_comma rfl '\x7d' _) (ih _ q)

theorem reads_reader_iff : Reads reader cs m rest ↔
    ∃ r, skipSpace cs = '\x7b' :: r ∧ Reads (object key readMember empty) r m rest := by
  rw [reader, reads_spaced_iff, reads_opening_iff]

/-- Pairs that are written are read back, the last one of each key. -/
theorem read_writePairs (pairs : List (String × String)) :
    read (writePairs pairs) = .ok (ofPairs pairs) := by
  have hobject : Reads (object key readMember empty)
      ((writeMembers pairs).toList ++ ([] ++ '\x7d' :: [])) (ofPairs pairs) [] := by
    cases pairs with
    | nil => exact reads_object_iff.mpr (.inl ⟨(reads_expect '\x7d' []).spaced rfl rfl, rfl⟩)
    | cons p pairs => exact (reads_writeMembers empty p pairs []).object_of_members
  have htext : (writePairs pairs).toList =
      '\x7b' :: ((writeMembers pairs).toList ++ ([] ++ '\x7d' :: [])) := by
    simp [writePairs, writeMembers]
  have hread : Reads reader (writePairs pairs).toList (ofPairs pairs) [] :=
    reads_reader_iff.mpr ⟨_, by rw [htext]; rfl, hobject⟩
  exact hread.readAll rfl

/-! ## Two readings of one text -/

/-- One more member has the last word on its key. -/
theorem ofJson_append (before : List (String × Value)) (name : String) (v : Value) :
    ofJson (.object (before ++ [(name, v)])) = (ofJson (.object before)).set name v.text := by
  simp [ofJson, ofPairs]

/-- A member that is read for its string is a member of the value. -/
theorem memberOf_of_readMember (h : Reads (key.andThen (readMember m)) cs m' rest) (depth : Nat)
    (before : List (String × Value)) :
    ∃ name s, m' = m.set name s ∧
      Reads (key.andThen (memberOf (value depth) before)) cs
        (before ++ [(name, .string s)]) rest := by
  obtain ⟨name, mid, hname, hmember⟩ := h.of_andThen
  obtain ⟨next, hcolon, hvalue⟩ := hmember.of_afterColon
  obtain ⟨s, hs, rfl⟩ := hvalue.of_map
  refine ⟨name, s, rfl, hname.andThen (hcolon.andThen ?_)⟩
  exact (hs.value_of_stringValue depth).map fun v => before ++ [(name, v)]

/-- Members that are read for their strings are members of the value. -/
theorem exists_members_of_readMember (h : Reads (members key readMember m) cs m' rest) (depth : Nat)
    {before : List (String × Value)} (hbefore : ofJson (.object before) = m) :
    ∃ all, Reads (members key (memberOf (value depth)) before) cs all rest ∧
      ofJson (.object all) = m' := by
  refine h.members_induction (motive := fun m cs => ∀ before, ofJson (.object before) = m →
    ∃ all, Reads (members key (memberOf (value depth)) before) cs all rest ∧
      ofJson (.object all) = m') ?_ ?_ before hbefore
  · rintro m cs mid hmember hmark before rfl
    obtain ⟨name, s, rfl, hvalue⟩ := memberOf_of_readMember hmember depth before
    exact ⟨_, hvalue.members_last hmark, ofJson_append before name (.string s)⟩
  · rintro m cs next mid rest hmember hmark _ ih before rfl
    obtain ⟨name, s, rfl, hvalue⟩ := memberOf_of_readMember hmember depth before
    obtain ⟨all, hall, hjson⟩ := ih _ (ofJson_append before name (.string s))
    exact ⟨all, hvalue.members_cons hmark hall, hjson⟩

/-- An object of strings is a JSON value, with the same metadata. -/
theorem exists_parse_of_read {text : String} (h : read text = .ok m) :
    ∃ members, Value.parse text = .ok (.object members) ∧ ofJson (.object members) = m := by
  obtain ⟨rest, hread, hrest⟩ := readAll_eq_ok_iff.mp h
  obtain ⟨r, hopen, hobject⟩ := reads_reader_iff.mp hread
  have hmembers : ∃ all, Reads (object key (memberOf (value 126)) []) r all rest ∧
      ofJson (.object all) = m := by
    rcases reads_object_iff.mp hobject with ⟨hclose, rfl⟩ | ⟨-, hmembers⟩
    · exact ⟨[], reads_object_iff.mpr (.inl ⟨hclose, rfl⟩), rfl⟩
    · have hempty : ofJson (.object []) = empty := rfl
      obtain ⟨all, hall, hjson⟩ := exists_members_of_readMember hmembers 126 hempty
      exact ⟨all, hall.object_of_members, hjson⟩
  obtain ⟨all, hall, hjson⟩ := hmembers
  have hvalue : Reads (value maxDepth) text.toList (.object all) rest :=
    reads_valueBy_iff.mpr (hopen ▸ .object hall)
  exact ⟨all, hvalue.readAll hrest, hjson⟩

/-- Metadata in writing, their keys in any order, are read back for their strings and as a JSON
value. Of a text that anybody wrote the two readings give the same metadata: wherever there are
strings to be read, the text is a JSON value, and of several members with one key both keep the
last. -/
theorem readings_agree (m : Metadata) :
    m.write = writePairs m.toPairs ∧
      (∀ pairs, pairs.Perm m.toPairs → read (writePairs pairs) = .ok m ∧
        ∃ v, Value.parse (writePairs pairs) = .ok v ∧ ofJson v = m) ∧
      ∀ text, read text = .ok m → ∃ v, Value.parse text = .ok v ∧ ofJson v = m := by
  have hagree : ∀ text, read text = .ok m → ∃ v, Value.parse text = .ok v ∧ ofJson v = m := by
    intro text h
    obtain ⟨members, hparse, hjson⟩ := exists_parse_of_read h
    exact ⟨.object members, hparse, hjson⟩
  refine ⟨rfl, fun pairs hperm => ?_, hagree⟩
  have hread : read (writePairs pairs) = .ok m := by rw [read_writePairs, ofPairs_of_perm hperm]
  exact ⟨hread, hagree _ hread⟩

/-- Keys against their order, with a quote and a control character, and a key that comes twice and
in two spellings, with a surrogate pair. -/
theorem readings_agree_twice :
    let m := ofPairs [("", "😀\\"), ("z\"", "\x00")]
    let pairs := [("z\"", "\x00"), ("", "😀\\")]
    let text := "\x7b\"a\":\"1\" ,\n \"\\u0061\": \"\\ud83d\\ude00\"\x7d"
    pairs.Perm m.toPairs ∧ read (writePairs pairs) = .ok m ∧
      (∃ v, Value.parse (writePairs pairs) = .ok v ∧ ofJson v = m) ∧
      read text = .ok (empty.set "a" "😀") ∧
      ∃ v, Value.parse text = .ok v ∧ ofJson v = empty.set "a" "😀" := by
  intro m pairs text
  have hperm : pairs.Perm m.toPairs := by decide +kernel
  have htext : read text = .ok (empty.set "a" "😀") := by decide +kernel
  obtain ⟨-, hwritten, -⟩ := readings_agree m
  obtain ⟨-, -, hread⟩ := readings_agree (empty.set "a" "😀")
  exact ⟨hperm, (hwritten pairs hperm).1, (hwritten pairs hperm).2, htext, hread text htext⟩

end PlayerText.Metadata
