import Mathlib.Data.List.Induction
import Mathlib.Data.List.Nodup
import Mathlib.Data.List.TakeWhile
import PlayerText.Proofs.Configuration.Run
import PlayerText.Proofs.Json.Object

/-!
# Configurations that leave fields out

A file may give some of the fields, in any order and among any other members, whose values are
skipped. The fields that it gives are read and the others have their defaults. A field that comes
twice, or whose value is no string, is a fault of the file, and then all the fields have their
defaults.

* `fieldsOf`, `IsPartial`: the fields among the members of an object, each at most once.
* `readMember_of_none`, `readMember_of_some`, `not_reads_readMember`: what a member does.
* `Adds`, `exists_reads_member`, `exists_reads_members`: the members of an object are read to their
  end, and each gives its field the format that is there.
* `not_reads_members`: a field that comes twice or is no string is not read.
* `exists_read_of_isPartial`, `exists_fault_of_offence`, `exists_fault_of_again`: a whole text.
* `Overrides`, `ofFile_overrides_defaults`: what is found in a file.
-/

namespace PlayerText.Configuration

open Json Storage

/-- The fields among some members, each with its value as it is written. -/
def fieldsOf (ms : List Member) : List (Field × List Char) :=
  ms.filterMap fun m => (Field.ofName? m.name).map fun f => (f, m.value)

/-- Each field is a member at most once, and then its value is the string of a text. -/
structure IsPartial (ms : List Member) : Prop where
  once : ((fieldsOf ms).map Prod.fst).Nodup
  string : ∀ p ∈ fieldsOf ms, ∃ format, StringText p.2 format

/-- The text does not go on with the string of a text. -/
def StartsNoString (cs : List Char) : Prop :=
  ∀ (space : Space) (v rest : List Char) (format : String), StringText v format →
    cs ≠ space.1 ++ (v ++ rest)

section Members

variable {given given' : Given} {f : Field} {m : Member} {ms : List Member} {name : String}
  {cs rest : List Char}

theorem fieldsOf_append (ms others : List Member) :
    fieldsOf (ms ++ others) = fieldsOf ms ++ fieldsOf others := List.filterMap_append

theorem fieldsOf_cons_none (h : Field.ofName? m.name = none) (ms : List Member) :
    fieldsOf (m :: ms) = fieldsOf ms := by
  simp [fieldsOf, h]

theorem fieldsOf_cons_some (h : Field.ofName? m.name = some f) (ms : List Member) :
    fieldsOf (m :: ms) = (f, m.value) :: fieldsOf ms := by
  simp [fieldsOf, h]

/-- The value of a member that is no field is skipped. -/
theorem readMember_of_none (h : Field.ofName? name = none) :
    readMember given name = afterColon (skip.map fun _ => given) := by
  rw [readMember, h]

/-- The value of a field has to be a string, the first time. -/
theorem readMember_of_some (h : Field.ofName? name = some f) (hf : (given f).isSome = false) :
    readMember given name = afterColon (stringValue.map (give given f)) := by
  rw [readMember, h]
  simp [hf]

/-- A field is not read twice. -/
theorem not_reads_readMember (h : Field.ofName? name = some f) (hf : (given f).isSome = true) :
    ¬Reads (readMember given name) cs given' rest := by
  rw [readMember, h]
  simp [hf, Reads]

theorem IsPartial.of_perm {ms' : List Member} (h : IsPartial ms)
    (hperm : (fieldsOf ms').Perm (fieldsOf ms)) : IsPartial ms' :=
  ⟨(hperm.map Prod.fst).nodup_iff.mpr h.once, fun p hp => h.string p (hperm.mem_iff.mp hp)⟩

/-- A string begins with a quote. -/
theorem StartsNoString.of_head? (h : (skipSpace cs).head? ≠ some '"') : StartsNoString cs := by
  rintro space v rest format ⟨spelled, -, rfl⟩ rfl
  rw [List.cons_append, skipSpace_append_cons space.2 (by decide)] at h
  exact h rfl

/-! ## What is read -/

/-- Formats that were given, and those of some fields more. -/
structure Adds (given : Given) (fields : List (Field × List Char)) (given' : Given) : Prop where
  formats : ∀ p ∈ fields, ∃ format, StringText p.2 format ∧ given' p.1 = some format
  others : ∀ f ∉ fields.map Prod.fst, given' f = given f

theorem Adds.append {given'' : Given} {fields others : List (Field × List Char)}
    (h : Adds given fields given') (h' : Adds given' others given'')
    (honce : ((fields ++ others).map Prod.fst).Nodup) : Adds given (fields ++ others) given'' := by
  rw [List.map_append] at honce
  have hdisjoint := List.disjoint_of_nodup_append honce
  refine ⟨fun p hp => ?_, fun f hf => ?_⟩
  · rcases List.mem_append.mp hp with hp | hp
    · obtain ⟨format, hformat, hgiven⟩ := h.formats p hp
      have hother : p.1 ∉ others.map Prod.fst := hdisjoint (List.mem_map_of_mem hp)
      exact ⟨format, hformat, by rw [h'.others p.1 hother, hgiven]⟩
    · exact h'.formats p hp
  · rw [List.map_append, List.mem_append, not_or] at hf
    rw [h'.others f hf.2, h.others f hf.1]

/-- A member that is no field is skipped, and the string of a field that was not given is read. -/
theorem exists_reads_member
    (hnew : ∀ f ∈ (fieldsOf [m]).map Prod.fst, (given f).isSome = false)
    (hstring : ∀ p ∈ fieldsOf [m], ∃ format, StringText p.2 format)
    (hends : EndsNumber (m.behind.1 ++ cs)) :
    ∃ given', Reads (key.andThen (readMember given)) (m.text ++ cs) given' (m.behind.1 ++ cs) ∧
      Adds given (fieldsOf [m]) given' := by
  cases hname : Field.ofName? m.name with
  | none =>
    refine ⟨given, m.reads (readMember_of_none hname) (m.valueText.skip m.ahead hends), ?_⟩
    rw [fieldsOf_cons_none hname]
    exact ⟨nofun, fun _ _ => rfl⟩
  | some f =>
    rw [fieldsOf_cons_some hname] at hnew hstring ⊢
    obtain ⟨format, hformat⟩ := hstring (f, m.value) List.mem_cons_self
    have hread : Reads stringValue (m.ahead.1 ++ (m.value ++ (m.behind.1 ++ cs))) format
        (m.behind.1 ++ cs) := reads_stringValue_iff_text.mpr ⟨m.ahead, m.value, hformat, rfl⟩
    refine ⟨give given f format,
      m.reads (readMember_of_some hname (hnew f List.mem_cons_self)) hread, ?_, ?_⟩
    · rintro p hp
      obtain rfl := List.mem_singleton.mp hp
      exact ⟨format, hformat, if_pos rfl⟩
    · intro g hg
      refine give_of_ne ?_ format
      rintro rfl
      exact hg List.mem_cons_self

/-- The members of an object are read to their end. -/
theorem exists_reads_members
    (hnew : ∀ f ∈ (fieldsOf (m :: ms)).map Prod.fst, (given f).isSome = false)
    (h : IsPartial (m :: ms)) :
    ∃ given', Reads (members key readMember given)
        (Member.row (m :: ms) ++ '\x7d' :: cs) given' cs ∧
      Adds given (fieldsOf (m :: ms)) given' := by
  obtain ⟨honce, hstring⟩ := h
  induction ms generalizing m given with
  | nil =>
    have hends : EndsNumber (m.behind.1 ++ '\x7d' :: cs) := endsNumber_close m.behind .object cs
    obtain ⟨given', hread, hadds⟩ := exists_reads_member hnew hstring hends
    exact ⟨given', hread.members_last
      (reads_separator_close m.behind.2 (by decide) (by decide) cs), hadds⟩
  | cons next others ih =>
    have hfields : fieldsOf (m :: next :: others) = fieldsOf [m] ++ fieldsOf (next :: others) :=
      fieldsOf_append [m] (next :: others)
    rw [hfields] at honce hnew hstring ⊢
    rw [List.map_append] at honce hnew
    have hdisjoint := List.disjoint_of_nodup_append honce
    have hends := endsNumber_comma m.behind (Member.row (next :: others) ++ '\x7d' :: cs)
    obtain ⟨given₁, hread, hadds⟩ := exists_reads_member
      (fun f hf => hnew f (List.mem_append_left _ hf))
      (fun p hp => hstring p (List.mem_append_left _ hp)) hends
    have hnew' : ∀ f ∈ (fieldsOf (next :: others)).map Prod.fst, (given₁ f).isSome = false := by
      intro f hf
      rw [hadds.others f fun hfm => hdisjoint hfm hf]
      exact hnew f (List.mem_append_right _ hf)
    obtain ⟨given₂, hothers, hadds'⟩ := ih hnew' honce.of_append_right
      (fun p hp => hstring p (List.mem_append_right _ hp))
    refine ⟨given₂, ?_, hadds.append hadds' (by rwa [List.map_append])⟩
    rw [Member.row_append (List.cons_ne_nil next others)]
    exact hread.members_cons (reads_separator_comma m.behind.2 '\x7d' _) hothers

/-! ## What is not read -/

/-- A field that comes twice or is no string is not read, whatever follows it. -/
theorem not_reads_members {label : Label} {tail : List Char}
    (hlabel : Field.ofName? label.name = some f)
    (h : (given f).isSome = true ∨ f ∈ (fieldsOf ms).map Prod.fst ∨ StartsNoString tail) :
    ¬Reads (members key readMember given)
      (Member.lead ms ++ (label.text ++ tail)) given' rest := by
  intro hread
  induction ms generalizing given with
  | nil =>
    obtain ⟨given₁, mid, _, _, hfirst, -⟩ := reads_members_iff.mp hread
    have hmember := label.reads_iff.mp hfirst
    cases hgiven : (given f).isSome with
    | true => exact not_reads_readMember hlabel hgiven hmember
    | false =>
      rw [readMember_of_some hlabel hgiven, reads_afterColon_iff] at hmember
      obtain ⟨format, hformat, -⟩ := hmember.of_map
      obtain ⟨space, v, hv, htail⟩ := reads_stringValue_iff_text.mp hformat
      rcases h with h | h | h
      · rw [hgiven] at h
        cases h
      · cases h
      · exact h space v mid format hv htail
  | cons m ms ih =>
    rw [Member.lead_cons] at hread
    cases hname : Field.ofName? m.name with
    | none =>
      obtain ⟨_, _, -, -, hothers⟩ :=
        Member.of_reads_comma readsLikeSkip_skip (readMember_of_none hname) hread
      rw [fieldsOf_cons_none hname] at h
      exact ih h hothers
    | some g =>
      cases hgiven : (given g).isSome with
      | true =>
        obtain ⟨_, _, _, _, hfirst, -⟩ := reads_members_iff.mp hread
        rw [m.text_append, m.toLabel.reads_iff] at hfirst
        exact not_reads_readMember hname hgiven hfirst
      | false =>
        obtain ⟨format, _, -, -, hothers⟩ := Member.of_reads_comma
          readsOneValue_stringValue.likeSkip (readMember_of_some hname hgiven) hread
        rw [fieldsOf_cons_some hname, List.map_cons, List.mem_cons] at h
        have hgive : (given f).isSome = true ∨ f = g → (give given g format f).isSome = true := by
          intro hf
          by_cases hfg : f = g
          · rw [hfg, give, if_pos rfl]
            rfl
          · rw [give_of_ne hfg]
            exact hf.resolve_right hfg
        refine ih ?_ hothers
        rcases h with h | (h | h) | h
        · exact .inl (hgive (.inl h))
        · exact .inl (hgive (.inr h))
        · exact .inr (.inl h)
        · exact .inr (.inr h)

/-- A field that comes twice has a first and a second member. -/
theorem exists_again (h : ¬((fieldsOf ms).map Prod.fst).Nodup) :
    ∃ before m later f, ms = before ++ m :: later ∧ Field.ofName? m.name = some f ∧
      f ∈ (fieldsOf before).map Prod.fst := by
  induction ms using List.reverseRecOn with
  | nil => exact absurd List.nodup_nil h
  | append_singleton ms m ih =>
    by_cases hms : ((fieldsOf ms).map Prod.fst).Nodup
    · cases hname : Field.ofName? m.name with
      | none =>
        rw [fieldsOf_append, fieldsOf_cons_none hname] at h
        exact absurd hms (by simpa [fieldsOf] using h)
      | some f =>
        refine ⟨ms, m, [], f, rfl, hname, Decidable.byContradiction fun hf => h ?_⟩
        rw [fieldsOf_append, fieldsOf_cons_some hname, List.map_append]
        exact hms.append (List.nodup_singleton f) (List.disjoint_singleton.mpr hf)
    · obtain ⟨before, m', later, f, rfl, hname, hf⟩ := ih hms
      exact ⟨before, m', later ++ [m], f, by simp, hname, hf⟩

/-- A member of a row stands behind those before it. -/
theorem exists_row_eq (before : List Member) (m : Member) (later : List Member) (cs : List Char) :
    ∃ tail, Member.row (before ++ m :: later) ++ cs =
      Member.lead before ++ (m.toLabel.text ++ tail) := by
  induction before with
  | nil =>
    by_cases hlater : later = []
    · rw [hlater]
      exact ⟨_, m.text_append cs⟩
    · rw [List.nil_append, Member.row_append hlater, m.text_append]
      exact ⟨_, rfl⟩
  | cons first before ih =>
    obtain ⟨tail, htail⟩ := ih
    have hne : before ++ m :: later ≠ [] :=
      List.append_ne_nil_of_right_ne_nil _ (List.cons_ne_nil _ _)
    rw [List.cons_append, Member.row_append hne, htail, ← Member.lead_cons]
    exact ⟨tail, rfl⟩

/-! ## Whole texts -/

/-- An object is read as its members. -/
theorem reads_reader_iff {config : Configuration} (before : Space) :
    Reads reader (before.1 ++ '\x7b' :: cs) config rest ↔
      ∃ given, Reads (object key readMember fun _ => none) cs given rest ∧
        ofGiven given = config := by
  rw [reader, reads_spaced_iff, skipSpace_append_cons before.2 (by decide)]
  constructor
  · rintro ⟨shorter, h⟩
    obtain ⟨_, mid, hopen, hobject⟩ := Reads.of_andThen ⟨shorter, (if_pos rfl).symm.trans h⟩
    obtain ⟨-, rfl⟩ := hopen.unique (reads_expect '\x7b' cs)
    exact hobject.of_map
  · rintro ⟨given, hobject, rfl⟩
    obtain ⟨shorter, h⟩ := (hobject.map ofGiven).after_expect '\x7b'
    exact ⟨shorter, (if_pos rfl).trans h⟩

/-- The fields of an object are read, and the others are not given. -/
theorem exists_read_of_isPartial {text : String} (htext : ObjectText text.toList ms)
    (h : IsPartial ms) :
    ∃ given, read text = .ok (ofGiven given) ∧ Adds (fun _ => none) (fieldsOf ms) given := by
  obtain ⟨before, inside, behind, htext⟩ := htext
  have hobject : ∃ given, Reads (object key readMember fun _ => none)
      (inside.1 ++ (Member.row ms ++ '\x7d' :: behind.1)) given behind.1 ∧
        Adds (fun _ => none) (fieldsOf ms) given := by
    cases ms with
    | nil => exact ⟨_, reads_object_nil_iff.mpr ⟨rfl, rfl⟩, nofun, fun _ _ => rfl⟩
    | cons m ms =>
      have hpartial : IsPartial (m.indent inside :: ms) := ⟨h.once, h.string⟩
      have hnew : ∀ f ∈ (fieldsOf (m.indent inside :: ms)).map Prod.fst,
          ((fun _ => none : Given) f).isSome = false := fun _ _ => rfl
      obtain ⟨given, hmembers, hadds⟩ := exists_reads_members hnew hpartial
      exact ⟨given, Member.reads_object_iff.mpr hmembers, hadds⟩
  obtain ⟨given, hobject, hadds⟩ := hobject
  have hread : Reads reader text.toList (ofGiven given) behind.1 := by
    rw [htext]
    exact (reads_reader_iff before).mpr ⟨given, hobject, rfl⟩
  exact ⟨given, hread.readAll (List.dropWhile_eq_nil_iff.mpr (List.all_eq_true.mp behind.2)), hadds⟩

/-- A text with a field that comes twice or is no string is not read. -/
theorem exists_fault_of_offence {text : String} {before : Space} {label : Label} {tail : List Char}
    (htext : text.toList = before.1 ++ '\x7b' :: (Member.lead ms ++ (label.text ++ tail)))
    (hlabel : Field.ofName? label.name = some f)
    (h : f ∈ (fieldsOf ms).map Prod.fst ∨ StartsNoString tail) :
    ∃ fault, read text = .error fault := by
  cases hread : read text with
  | error fault => exact ⟨fault, rfl⟩
  | ok config =>
    obtain ⟨rest, hreader, -⟩ := readAll_eq_ok_iff.mp hread
    rw [htext, reads_reader_iff] at hreader
    obtain ⟨given, hobject, -⟩ := hreader
    have hcloses : closes? '\x7d' (Member.lead ms ++ (label.text ++ tail)) = none := by
      cases ms with
      | nil => exact label.closes?_eq_none tail
      | cons m ms =>
        rw [Member.lead_cons, m.text_append]
        exact m.toLabel.closes?_eq_none _
    have hmembers := (reads_object_iff_members hcloses).mp hobject
    exact absurd hmembers (not_reads_members hlabel (.inr h))

/-- So is an object with a field that comes twice. -/
theorem exists_fault_of_again {text : String} (htext : ObjectText text.toList ms)
    (h : ¬((fieldsOf ms).map Prod.fst).Nodup) : ∃ fault, read text = .error fault := by
  obtain ⟨before, inside, behind, htext⟩ := htext
  cases ms with
  | nil => exact absurd List.nodup_nil h
  | cons m ms =>
    have hagain : ¬((fieldsOf (m.indent inside :: ms)).map Prod.fst).Nodup := h
    obtain ⟨first, again, later, f, hms, hname, hf⟩ := exists_again hagain
    obtain ⟨tail, htail⟩ := exists_row_eq first again later ('\x7d' :: behind.1)
    rw [← hms, Member.row_indent, List.append_assoc] at htail
    rw [htail] at htext
    exact exists_fault_of_offence htext hname (.inl hf)

end Members

/-! ## Files -/

section Files

variable {fs : FileSystem} {path text : String}

/-- What is found in a file is what its text is read as. -/
theorem ofFile_of_readText (h : fs.readText path = .ok text) :
    ofFile path fs = ((read text).mapError .json, fs) := by
  rw [ofFile, Action.bind_of_ok (Action.ofRead_of_ok h)]
  cases read text <;> rfl

theorem ofFileOrDefault_of_error {cause : Error} (h : ofFile path fs = (.error cause, fs)) :
    ofFileOrDefault path fs = (default, fs) := by
  rw [ofFileOrDefault, orDefault_eq, h]
  rfl

/-- The configuration with the given fields and defaults for the others. -/
structure Overrides (config : Configuration) (fields : List (Field × List Char)) : Prop where
  given : ∀ p ∈ fields, StringText p.2 (config.get p.1)
  missing : ∀ f ∉ fields.map Prod.fst, config.get f = (default : Configuration).get f

theorem Overrides.of_adds {given : Given} {fields : List (Field × List Char)}
    (h : Adds (fun _ => none) fields given) : Overrides (ofGiven given) fields := by
  refine ⟨fun p hp => ?_, fun f hf => ?_⟩
  · obtain ⟨format, hformat, hgiven⟩ := h.formats p hp
    rw [ofGiven, get_ofFields, hgiven]
    exact hformat
  · rw [ofGiven, get_ofFields, h.others f hf]
    rfl

/-- The fields, in any order, leave no choice. -/
theorem Overrides.unique {config config' : Configuration}
    {fields fields' : List (Field × List Char)} (h : Overrides config fields)
    (h' : Overrides config' fields') (hperm : fields'.Perm fields) : config' = config := by
  have hget : ∀ f, config'.get f = config.get f := by
    intro f
    by_cases hf : f ∈ fields.map Prod.fst
    · obtain ⟨p, hp, rfl⟩ := List.mem_map.mp hf
      exact (h'.given p (hperm.mem_iff.mpr hp)).unique (h.given p hp)
    · have hf' : f ∉ fields'.map Prod.fst := fun hmem => hf ((hperm.map Prod.fst).mem_iff.mp hmem)
      rw [h.missing f hf, h'.missing f hf']
  rw [← ofFields_get config', ← ofFields_get config, funext hget]

end Files

/-- What is found in a file that holds an object. If each field is there at most once, and then as a
string, the configuration has the strings of the fields that are there, and defaults for the others,
whatever other members there are and in whatever order they stand. If a field comes twice, or if the
members up to some field are well-formed and the field does not go on with a string, the file has a
fault, and then all the formats are the default ones. -/
theorem ofFile_overrides_defaults {fs : FileSystem} {path text : String}
    (h : fs.readText path = .ok text) :
    (∀ ms, ObjectText text.toList ms → IsPartial ms →
      ∃ config, ofFile path fs = (.ok config, fs) ∧ ofFileOrDefault path fs = (config, fs) ∧
        Overrides config (fieldsOf ms) ∧
        ∀ path' fs' text' ms', fs'.readText path' = .ok text' → ObjectText text'.toList ms' →
          (fieldsOf ms').Perm (fieldsOf ms) → ofFile path' fs' = (.ok config, fs')) ∧
    (∀ ms, ObjectText text.toList ms → ¬((fieldsOf ms).map Prod.fst).Nodup →
      ∃ fault, ofFile path fs = (.error (.json fault), fs) ∧
        ofFileOrDefault path fs = (default, fs)) ∧
    ∀ (before : Space) (ms : List Member) (label : Label) (tail : List Char) (f : Field),
      text.toList = before.1 ++ '\x7b' :: (Member.lead ms ++ (label.text ++ tail)) →
      Field.ofName? label.name = some f → f ∈ (fieldsOf ms).map Prod.fst ∨ StartsNoString tail →
      ∃ fault, ofFile path fs = (.error (.json fault), fs) ∧
        ofFileOrDefault path fs = (default, fs) := by
  have hfails : (∃ fault, read text = .error fault) → ∃ fault,
      ofFile path fs = (.error (.json fault), fs) ∧ ofFileOrDefault path fs = (default, fs) := by
    rintro ⟨fault, hread⟩
    have hfile : ofFile path fs = (.error (.json fault), fs) := by
      rw [ofFile_of_readText h, hread]
      rfl
    exact ⟨fault, hfile, ofFileOrDefault_of_error hfile⟩
  refine ⟨fun ms htext hpartial => ?_, fun ms htext htwice => ?_, ?_⟩
  · obtain ⟨given, hread, hadds⟩ := exists_read_of_isPartial htext hpartial
    have hfile : ofFile path fs = (.ok (ofGiven given), fs) := by
      rw [ofFile_of_readText h, hread]
      rfl
    refine ⟨ofGiven given, hfile, ofFileOrDefault_of_ofFile hfile, .of_adds hadds, ?_⟩
    intro path' fs' text' ms' h' htext' hperm
    obtain ⟨given', hread', hadds'⟩ := exists_read_of_isPartial htext' (hpartial.of_perm hperm)
    have hsame : ofGiven given' = ofGiven given :=
      (Overrides.of_adds hadds).unique (.of_adds hadds') hperm
    rw [ofFile_of_readText h', hread', hsame]
    rfl
  · exact hfails (exists_fault_of_again htext htwice)
  · intro before ms label tail f htext hlabel hoffence
    exact hfails (exists_fault_of_offence htext hlabel hoffence)

/-- A field among members that are skipped, one of them twice; a field that comes twice; and a field
that is a number, in a text that is cut off. -/
theorem ofFile_overrides_defaults_theme :
    let holding := fun text : String =>
      FileSystem.empty.insert ["formats.json"] (some (.file text.toUTF8))
    let partly := "\x7b\"theme\":\x7b\"a\":[true]\x7d,\"osd_time_format\":\"%wp\",\"theme\":null\x7d"
    let twice := "\x7b\"osd_time_format\":\"a\",\"osd_time_format\":\"a\"\x7d"
    let cut := "\x7b\"theme\":null,\"osd_time_format\":1"
    let config : Configuration := { (default : Configuration) with osdTime := "%wp" }
    ofFile "/formats.json" (holding partly) = (.ok config, holding partly) ∧
      (ofFileOrDefault "/formats.json" (holding twice)).1 = default ∧
      (ofFileOrDefault "/formats.json" (holding cut)).1 = default := by
  intro holding partly twice cut config
  have hholds : ∀ text, (holding text).readText "/formats.json" = .ok text := fun text =>
    FileSystem.readText_of_read rfl
  have hstring : ∀ text : String, text.toList.all isPlain = true →
      ValueText ('"' :: (text.toList ++ ['"'])) :=
    fun text h => .scalar (.string (stringText_plain h).loose)
  let inner := Member.plain "a" (by decide)
    (.row .array (.last ⟨[], rfl⟩ ⟨[], rfl⟩ .array (.scalar .true)))
  let theme := Member.plain "theme" (by decide) (.row .object (Member.rowText_row inner []))
  let again := Member.plain "theme" (by decide) (.scalar .null)
  let time := fun text h => Member.plain "osd_time_format" (by decide) (hstring text h)
  have hpartly : ObjectText partly.toList [theme, time "%wp" (by decide), again] :=
    ⟨⟨[], rfl⟩, ⟨[], rfl⟩, ⟨[], rfl⟩, by
      simp [partly, Member.row, Member.text, Label.text, Member.plain, theme, again, time, inner,
        Container.opening, Container.close]⟩
  have htwice : ObjectText twice.toList [time "a" (by decide), time "a" (by decide)] :=
    ⟨⟨[], rfl⟩, ⟨[], rfl⟩, ⟨[], rfl⟩, by
      simp [twice, Member.row, Member.text, Label.text, Member.plain, time]⟩
  have hcut : cut.toList = [] ++ '\x7b' ::
      (Member.lead [again] ++ ((time "" (by decide)).toLabel.text ++ ['1'])) := by
    simp [cut, Member.lead, Member.text, Label.text, Member.plain, time, again]
  have htheme : Field.ofName? "theme" = none := by decide
  have htime : Field.ofName? "osd_time_format" = some .osdTime := by decide
  have hfields : fieldsOf [theme, time "%wp" (by decide), again] =
      [(.osdTime, '"' :: ("%wp".toList ++ ['"']))] :=
    (fieldsOf_cons_none htheme _).trans
      ((fieldsOf_cons_some htime _).trans (congrArg _ (fieldsOf_cons_none htheme _)))
  have hpartial : IsPartial [theme, time "%wp" (by decide), again] := by
    refine ⟨?_, ?_⟩
    · rw [hfields]
      exact List.nodup_singleton _
    · rw [hfields]
      rintro p hp
      obtain rfl := List.mem_singleton.mp hp
      exact ⟨_, stringText_plain (by decide)⟩
  have hconfig : Overrides config [(.osdTime, '"' :: ("%wp".toList ++ ['"']))] := by
    refine ⟨?_, ?_⟩
    · rintro p hp
      obtain rfl := List.mem_singleton.mp hp
      exact stringText_plain (by decide)
    · rintro (_ | _ | _ | _) hf
      · rfl
      · rfl
      · exact absurd List.mem_cons_self hf
      · rfl
  have hagain : ¬((fieldsOf [time "a" (by decide), time "a" (by decide)]).map Prod.fst).Nodup := by
    rw [fieldsOf_cons_some htime, fieldsOf_cons_some htime]
    simp
  obtain ⟨config', hfile, -, hover, -⟩ :=
    (ofFile_overrides_defaults (hholds partly)).1 _ hpartly hpartial
  rw [hfields] at hover
  rw [hconfig.unique hover (List.Perm.refl _)] at hfile
  obtain ⟨_, -, hdefault⟩ := (ofFile_overrides_defaults (hholds twice)).2.1 _ htwice hagain
  obtain ⟨_, -, hdefault'⟩ := (ofFile_overrides_defaults (hholds cut)).2.2 ⟨[], rfl⟩ [again] _ ['1'] _
    hcut htime (.inr (.of_head? (by decide)))
  exact ⟨hfile, by rw [hdefault], by rw [hdefault']⟩

end PlayerText.Configuration
