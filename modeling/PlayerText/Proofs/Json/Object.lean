import Mathlib.Data.List.Forall2
import PlayerText.Proofs.Json.Skip

/-!
# Objects by their members

An object is read member by member, as its members are written. Every reader of a value reads as far
as the value goes that is skipped there, so what stands behind a member is the same for all of them.

* `reads_stringValue_iff_text`, `Label.reads_iff`: strings, and the name of a member with its colon.
* `ReadsLikeSkip`, `ReadsOneValue`: a reader ends where the value ends, or has read one in writing.
* `readsOneValue_stringValue`, `readsOneValue_value`: strings, and values of any depth.
* `Member.reads`, `Member.of_reads_comma`, `Member.of_reads_close`: a member as it is written, with
  others behind it or as the last one.
* `Member.reads_object_iff`, `reads_object_nil_iff`: an object with members and one without.
* `Member.ReadAs`, `ObjectText.readAs_of_parse`, `exists_objectText_of_parse`: a text that is an
  object, and its value.
-/

namespace PlayerText.Json

variable {α σ : Type} {cs rest mid next : List Char} {p : Reader α} {a : α}

/-! ## Names -/

/-- A string is read where there is the string of a text. -/
theorem reads_stringValue_iff_text {text : String} : Reads stringValue cs text rest ↔
    ∃ (space : Space) (v : List Char), StringText v text ∧ cs = space.1 ++ (v ++ rest) := by
  rw [reads_stringValue_iff]
  constructor
  · rintro ⟨r, hcs, htext⟩
    obtain ⟨spelled, hspelled, rfl⟩ := reads_string_iff.mp htext
    obtain ⟨space, hspace, hsplit, -⟩ := exists_space cs
    exact ⟨⟨space, hspace⟩, _, ⟨spelled, hspelled, rfl⟩, by rw [hsplit, hcs]; simp⟩
  · rintro ⟨space, v, ⟨spelled, hspelled, rfl⟩, rfl⟩
    refine ⟨spelled ++ '"' :: rest, ?_, reads_string_iff.mpr ⟨spelled, hspelled, rfl⟩⟩
    rw [List.cons_append, skipSpace_append_cons space.2 (by decide)]
    simp

/-- A string is the string of one text. -/
theorem StringText.unique {v : List Char} {text text' : String} (h : StringText v text)
    (h' : StringText v text') : text = text' := by
  have hread : ∀ {text}, StringText v text → Reads stringValue (v ++ []) text [] := fun h =>
    reads_stringValue_iff_text.mpr ⟨⟨[], rfl⟩, v, h, rfl⟩
  exact ((hread h).unique (hread h')).1

theorem reads_afterColon_iff (between : Space) :
    Reads (afterColon p) (between.1 ++ ':' :: cs) a rest ↔ Reads p cs a rest := by
  have hcolon : Reads (spaced (expect ':')) (between.1 ++ ':' :: cs) () cs :=
    (reads_expect ':' cs).spaced between.2 (by decide)
  refine ⟨fun h => ?_, fun h => hcolon.andThen h⟩
  obtain ⟨mid, hmid, hp⟩ := h.of_afterColon
  rwa [← (hmid.unique hcolon).2]

/-- A member is read on from its colon. -/
theorem Label.reads_iff {member : σ → String → Reader σ} {s t : σ} (label : Label) :
    Reads (key.andThen (member s)) (label.text ++ cs) t rest ↔
      Reads (member s label.name) (label.between.1 ++ ':' :: cs) t rest := by
  have hkey : Reads key (label.text ++ cs) label.name (label.between.1 ++ ':' :: cs) :=
    reads_key_iff.mpr (reads_stringValue_iff_text.mpr
      ⟨label.before, label.quoted, label.stringText, by simp [Label.text]⟩)
  refine ⟨fun h => ?_, fun h => hkey.andThen h⟩
  obtain ⟨name, mid, hname, hmember⟩ := h.of_andThen
  obtain ⟨rfl, rfl⟩ := hname.unique hkey
  exact hmember

/-! ## One value -/

/-- The reader reads as far as a value is skipped. -/
def ReadsLikeSkip (p : Reader α) : Prop :=
  ∀ cs a rest, Reads p cs a rest → EndsNumber rest → Reads skip cs () rest

/-- What is read is a value in writing. -/
def ReadsOneValue (p : Reader α) : Prop := ∀ cs a rest, Reads p cs a rest →
  ∃ (space : Space) (v : List Char), ValueText v ∧ cs = space.1 ++ (v ++ rest)

theorem readsLikeSkip_skip : ReadsLikeSkip skip := fun _ _ _ h _ => h

theorem ReadsOneValue.likeSkip (hp : ReadsOneValue p) : ReadsLikeSkip p := by
  intro cs a rest h hends
  obtain ⟨space, v, hv, rfl⟩ := hp cs a rest h
  exact hv.skip space hends

theorem EndsNumber.of_separator {more : Bool} (kind : Container)
    (h : Reads (separator kind.close) cs more rest) : EndsNumber cs := by
  obtain ⟨space, hspace, rfl⟩ := h.of_separator
  cases more with
  | false => exact endsNumber_close ⟨space, hspace⟩ kind rest
  | true => exact endsNumber_comma ⟨space, hspace⟩ rest

theorem readsOneValue_stringValue : ReadsOneValue stringValue := by
  intro cs text rest h
  obtain ⟨space, v, hv, hcs⟩ := reads_stringValue_iff_text.mp h
  exact ⟨space, v, .scalar (.string hv.loose), hcs⟩

/-! ## Members as they are written -/

section Member

variable {member : σ → String → Reader σ} {s t : σ} {f : α → σ} {m : Member}

theorem Member.text_append (m : Member) (cs : List Char) : m.text ++ cs =
    m.toLabel.text ++ (m.ahead.1 ++ (m.value ++ (m.behind.1 ++ cs))) := by
  simp [Member.text]

/-- Behind a member that is not the last stands a comma. -/
theorem Member.row_append {ms : List Member} (hms : ms ≠ []) (m : Member) (cs : List Char) :
    Member.row (m :: ms) ++ cs = m.text ++ ',' :: (Member.row ms ++ cs) := by
  obtain ⟨next, others, rfl⟩ := List.exists_cons_of_ne_nil hms
  simp [Member.row]

/-- A member is read where its value is. -/
theorem Member.reads (hmember : member s m.name = afterColon (p.map f))
    (h : Reads p (m.ahead.1 ++ (m.value ++ (m.behind.1 ++ cs))) a rest) :
    Reads (key.andThen (member s)) (m.text ++ cs) (f a) rest := by
  rw [m.text_append, m.toLabel.reads_iff, hmember, reads_afterColon_iff]
  exact h.map f

/-- A member is read from its value, up to what stands behind it. -/
theorem Member.of_reads (hp : ReadsLikeSkip p) (hmember : member s m.name = afterColon (p.map f))
    (hends : EndsNumber (m.behind.1 ++ cs)) (hrest : EndsNumber rest)
    (h : Reads (key.andThen (member s)) (m.text ++ cs) t rest) :
    ∃ a, Reads p (m.ahead.1 ++ (m.value ++ (m.behind.1 ++ cs))) a rest ∧ t = f a ∧
      rest = m.behind.1 ++ cs := by
  rw [m.text_append, m.toLabel.reads_iff, hmember, reads_afterColon_iff] at h
  obtain ⟨a, ha, hfa⟩ := h.of_map
  have hskip := hp _ _ _ ha hrest
  exact ⟨a, ha, hfa.symm, (hskip.unique (m.valueText.skip m.ahead hends)).2⟩

/-- A member with others behind it. -/
theorem Member.of_reads_comma (hp : ReadsLikeSkip p)
    (hmember : member s m.name = afterColon (p.map f))
    (h : Reads (members key member s) (m.text ++ ',' :: cs) t rest) :
    ∃ a after, EndsNumber after ∧ Reads p (m.ahead.1 ++ (m.value ++ after)) a after ∧
      Reads (members key member (f a)) cs t rest := by
  obtain ⟨s', mid, more, next, hfirst, hmark, hothers⟩ := reads_members_iff.mp h
  have hmid : EndsNumber mid := .of_separator .object hmark
  obtain ⟨a, ha, rfl, rfl⟩ := Member.of_reads hp hmember (endsNumber_comma _ _) hmid hfirst
  obtain ⟨rfl, rfl⟩ := hmark.unique (reads_separator_comma m.behind.2 '\x7d' cs)
  obtain ⟨hmore, -⟩ | ⟨-, hothers⟩ := hothers
  · cases hmore
  · exact ⟨a, _, hmid, ha, hothers⟩

/-- The last member. -/
theorem Member.of_reads_close (hp : ReadsLikeSkip p)
    (hmember : member s m.name = afterColon (p.map f))
    (h : Reads (members key member s) (m.text ++ '\x7d' :: cs) t rest) :
    ∃ a after, EndsNumber after ∧ Reads p (m.ahead.1 ++ (m.value ++ after)) a after ∧
      t = f a ∧ rest = cs := by
  obtain ⟨s', mid, more, next, hfirst, hmark, hothers⟩ := reads_members_iff.mp h
  have hmid : EndsNumber mid := .of_separator .object hmark
  obtain ⟨a, ha, rfl, rfl⟩ := Member.of_reads hp hmember (endsNumber_close _ .object _) hmid hfirst
  obtain ⟨rfl, rfl⟩ := hmark.unique (reads_separator_close m.behind.2 (by decide) (by decide) cs)
  obtain ⟨-, ht, hrest⟩ | ⟨hmore, -⟩ := hothers
  · exact ⟨a, _, hmid, ha, ht, hrest⟩
  · cases hmore

/-- A member is written where one is read. -/
theorem Reads.exists_member {more : Bool} (hp : ReadsOneValue p)
    (hmember : ∀ s name, ∃ f : α → σ, member s name = Json.afterColon (p.map f))
    (h : Reads (key.andThen (member s)) cs t mid)
    (hmark : Reads (separator '\x7d') mid more next) :
    ∃ m : Member, cs = m.text ++ (if more then ',' else '\x7d') :: next := by
  obtain ⟨name, _, hkey, hrest⟩ := h.of_andThen
  obtain ⟨before, quoted, hquoted, rfl⟩ := reads_stringValue_iff_text.mp (reads_key_iff.mp hkey)
  obtain ⟨f, hf⟩ := hmember s name
  rw [hf] at hrest
  obtain ⟨_, hcolon, hvalue⟩ := hrest.of_afterColon
  obtain ⟨between, hbetween, rfl⟩ := hcolon.of_spaced_expect
  obtain ⟨a, ha, -⟩ := hvalue.of_map
  obtain ⟨ahead, v, hv, rfl⟩ := hp _ _ _ ha
  obtain ⟨behind, hbehind, rfl⟩ := hmark.of_separator
  let m : Member :=
    { name, quoted, before, between := ⟨between, hbetween⟩, stringText := hquoted
      value := v, ahead, behind := ⟨behind, hbehind⟩, valueText := hv }
  exact ⟨m, by simp [m, Member.text, Label.text]⟩

/-- Members are written where some are read. -/
theorem Reads.exists_row (hp : ReadsOneValue p)
    (hmember : ∀ s name, ∃ f : α → σ, member s name = Json.afterColon (p.map f))
    (h : Reads (members key member s) cs t rest) :
    ∃ m ms, cs = Member.row (m :: ms) ++ '\x7d' :: rest := by
  refine h.members_induction
    (motive := fun _ cs => ∃ m ms, cs = Member.row (m :: ms) ++ '\x7d' :: rest) ?last ?cons
  case last =>
    intro s cs mid hfirst hmark
    obtain ⟨m, rfl⟩ := hfirst.exists_member hp hmember hmark
    exact ⟨m, [], rfl⟩
  case cons =>
    rintro s cs s' mid _ hfirst hmark - ⟨m', ms, rfl⟩
    obtain ⟨m, rfl⟩ := hfirst.exists_member hp hmember hmark
    exact ⟨m, m' :: ms, by simp [Member.row]⟩

theorem Label.nameText (label : Label) : NameText .object label.text :=
  .object label.before label.between label.stringText.loose

/-- Members make the inside of a container. -/
theorem Member.rowText_row (m : Member) (ms : List Member) :
    RowText .object (Member.row (m :: ms)) := by
  induction ms generalizing m with
  | nil => exact .last m.ahead m.behind m.toLabel.nameText m.valueText
  | cons next others ih =>
    have hrow := RowText.cons m.ahead m.behind m.toLabel.nameText m.valueText (ih next)
    simpa [Member.row, Member.text] using hrow

end Member

/-! ## Values of any depth -/

/-- Items are written where some are read. -/
theorem Reads.exists_itemsRow {values : List α} (hp : ReadsOneValue p)
    (h : Reads (items p) cs values rest) : ∃ row, RowText .array row ∧ cs = row ++ ']' :: rest := by
  refine h.items_induction
    (motive := fun cs _ => ∃ row, RowText .array row ∧ cs = row ++ ']' :: rest) ?last ?cons
  case last =>
    intro cs a mid hfirst hmark
    obtain ⟨before, v, hv, rfl⟩ := hp _ _ _ hfirst
    obtain ⟨behind, hbehind, rfl⟩ := hmark.of_separator
    exact ⟨_, .last before ⟨behind, hbehind⟩ .array hv, by simp⟩
  case cons =>
    rintro cs a mid _ values hfirst hmark ⟨row, hrow, rfl⟩
    obtain ⟨before, v, hv, rfl⟩ := hp _ _ _ hfirst
    obtain ⟨behind, hbehind, rfl⟩ := hmark.of_separator
    exact ⟨_, .cons before ⟨behind, hbehind⟩ .array hv hrow, by simp⟩

/-- What was read of an array after its opening bracket. -/
theorem Reads.exists_array {values : List α} (hp : ReadsOneValue p)
    (h : Reads (array p) cs values rest) :
    ∃ inside, ValueText ('[' :: (inside ++ [']'])) ∧ cs = inside ++ ']' :: rest := by
  obtain ⟨hclose, -⟩ | ⟨-, hitems⟩ := reads_array_iff.mp h
  · obtain ⟨space, hspace, rfl⟩ := hclose.of_spaced_expect
    exact ⟨space, .empty .array ⟨space, hspace⟩, rfl⟩
  · obtain ⟨row, hrow, rfl⟩ := hitems.exists_itemsRow hp
    exact ⟨row, .row .array hrow, rfl⟩

/-- What was read of an object after its opening brace. -/
theorem Reads.exists_members {member : σ → String → Reader σ} {s t : σ} (hp : ReadsOneValue p)
    (hmember : ∀ s name, ∃ f : α → σ, member s name = Json.afterColon (p.map f))
    (h : Reads (Json.object key member s) cs t rest) : ∃ (inside : Space) (ms : List Member),
      ValueText ('\x7b' :: (inside.1 ++ (Member.row ms ++ ['\x7d']))) ∧
        cs = inside.1 ++ (Member.row ms ++ '\x7d' :: rest) := by
  obtain ⟨hclose, -⟩ | ⟨-, hmembers⟩ := reads_object_iff.mp h
  · obtain ⟨space, hspace, rfl⟩ := hclose.of_spaced_expect
    exact ⟨⟨space, hspace⟩, [], .empty .object ⟨space, hspace⟩, rfl⟩
  · obtain ⟨m, ms, rfl⟩ := hmembers.exists_row hp hmember
    exact ⟨⟨[], rfl⟩, m :: ms, .row .object (Member.rowText_row m ms), rfl⟩

/-- What was read as a value is one, if that holds of what is in a container. -/
theorem ReadsValue.exists_valueText {array : Reader (List Value)}
    {object : Reader (List (String × Value))} {v : Value}
    (harray : ∀ cs values, Reads array cs values rest →
      ∃ inside, ValueText ('[' :: (inside ++ [']'])) ∧ cs = inside ++ ']' :: rest)
    (hobject : ∀ cs members, Reads object cs members rest →
      ∃ inside, ValueText ('\x7b' :: (inside ++ ['\x7d'])) ∧ cs = inside ++ '\x7d' :: rest)
    (h : ReadsValue array object cs v rest) : ∃ w, ValueText w ∧ cs = w ++ rest := by
  cases h with
  | null => exact ⟨_, .scalar .null, rfl⟩
  | true => exact ⟨_, .scalar .true, rfl⟩
  | false => exact ⟨_, .scalar .false, rfl⟩
  | string hs =>
    obtain ⟨spelled, hspelled, rfl⟩ := reads_string_iff.mp hs
    have hv : StringText ('"' :: (spelled ++ ['"'])) _ := ⟨spelled, hspelled, rfl⟩
    exact ⟨_, .scalar (.string hv.loose), by simp⟩
  | number _ hn =>
    obtain ⟨l, mid, hl, hnumber⟩ := hn.of_bind
    obtain ⟨w, hw, hcs⟩ := hl.literal_isText
    split at hnumber
    · obtain ⟨-, rfl⟩ := hnumber.of_ret
      exact ⟨w, .scalar (.number hw), hcs⟩
    · exact hnumber.not_fail.elim
  | array hitems =>
    obtain ⟨inside, hv, rfl⟩ := harray _ _ hitems
    exact ⟨_, hv, by simp⟩
  | object hmembers =>
    obtain ⟨inside, hv, rfl⟩ := hobject _ _ hmembers
    exact ⟨_, hv, by simp⟩

/-- A value that was read is written there, behind some space. -/
theorem readsOneValue_value (depth : Nat) : ReadsOneValue (value depth) := by
  intro cs v rest h
  have hw : ∃ w, ValueText w ∧ skipSpace cs = w ++ rest := by
    cases depth with
    | zero =>
      refine (reads_valueBy_iff.mp h).exists_valueText ?_ ?_
      · rintro _ _ ⟨_, h⟩
        cases h
      · rintro _ _ ⟨_, h⟩
        cases h
    | succ depth =>
      have hinner : ReadsOneValue (value depth) := readsOneValue_value depth
      refine (reads_valueBy_iff.mp h).exists_valueText
        (fun _ _ hitems => hitems.exists_array hinner) fun _ _ hmembers => ?_
      obtain ⟨inside, ms, hv, rfl⟩ := hmembers.exists_members hinner fun s name => ⟨_, rfl⟩
      exact ⟨inside.1 ++ Member.row ms, by simpa using hv, by simp⟩
  obtain ⟨w, hw, hskip⟩ := hw
  obtain ⟨space, hspace, hcs, -⟩ := exists_space cs
  exact ⟨⟨space, hspace⟩, w, hw, by rw [hcs, hskip]⟩

/-! ## Objects -/

section Object

variable {member : σ → String → Reader σ} {s t : σ} {m : Member} {ms : List Member}
  {inside : Space} {depth : Nat} {before pairs : List (String × Value)}

/-- A member with more space in front. -/
def Member.indent (space : Space) (m : Member) : Member :=
  { m with before := ⟨space.1 ++ m.before.1, by rw [List.all_append, space.2, m.before.2]; rfl⟩ }

theorem Member.row_indent (space : Space) (m : Member) (ms : List Member) :
    Member.row (m.indent space :: ms) = space.1 ++ Member.row (m :: ms) := by
  cases ms <;> simp [Member.row, Member.text, Label.text, Member.indent]

/-- A member with a plain name and without space. -/
def Member.plain (name : String) (hname : name.toList.all isPlain = true) {v : List Char}
    (hv : ValueText v) : Member where
  name := name
  quoted := '"' :: (name.toList ++ ['"'])
  before := ⟨[], rfl⟩
  between := ⟨[], rfl⟩
  stringText := stringText_plain hname
  value := v
  ahead := ⟨[], rfl⟩
  behind := ⟨[], rfl⟩
  valueText := hv

/-- An object with members is read member by member. -/
theorem Member.reads_object_iff :
    Reads (object key member s) (inside.1 ++ (Member.row (m :: ms) ++ '\x7d' :: cs)) t rest ↔
      Reads (members key member s) (Member.row (m.indent inside :: ms) ++ '\x7d' :: cs) t rest := by
  have htext : inside.1 ++ (Member.row (m :: ms) ++ '\x7d' :: cs) =
      Member.row (m.indent inside :: ms) ++ '\x7d' :: cs := by rw [Member.row_indent]; simp
  rw [htext]
  exact reads_object_iff_members ((Member.rowText_row (m.indent inside) ms).closes?_eq_none _)

/-- A label closes no object. -/
theorem Label.closes?_eq_none (label : Label) (cs : List Char) :
    closes? '\x7d' (label.text ++ cs) = none := by
  obtain ⟨spelled, -, hquoted⟩ := label.stringText
  rw [Label.text, hquoted, List.append_assoc, List.cons_append, List.cons_append]
  exact Json.closes?_eq_none label.before.2 (by decide) (by decide) _

theorem Member.lead_cons (m : Member) (ms : List Member) (cs : List Char) :
    Member.lead (m :: ms) ++ cs = m.text ++ ',' :: (Member.lead ms ++ cs) := by
  simp [Member.lead]

/-- An object without members is read at once. -/
theorem reads_object_nil_iff :
    Reads (object key member s) (inside.1 ++ '\x7d' :: cs) t rest ↔ t = s ∧ rest = cs := by
  have hclose : Reads (spaced (expect '\x7d')) (inside.1 ++ '\x7d' :: cs) () cs :=
    (reads_expect '\x7d' cs).spaced inside.2 (by decide)
  constructor
  · intro h
    obtain ⟨hread, rfl⟩ | ⟨hnone, -⟩ := reads_object_iff.mp h
    · exact ⟨rfl, (hread.unique hclose).2⟩
    · obtain ⟨_, hsome⟩ := closes?_eq_some_iff.mpr hclose
      exact absurd (hnone.symm.trans hsome) (Option.some_ne_none _).symm
  · rintro ⟨rfl, rfl⟩
    exact reads_object_iff.mpr (.inl ⟨hclose, rfl⟩)

/-- A member of a value is what was read of a member in writing. -/
def Member.ReadAs (depth : Nat) (m : Member) (p : String × Value) : Prop :=
  p.1 = m.name ∧ ∃ after, EndsNumber after ∧
    Reads (Json.value depth) (m.ahead.1 ++ (m.value ++ after)) p.2 after

theorem Member.readAs_row
    (h : Reads (members key (memberOf (Json.value depth)) before)
      (Member.row (m :: ms) ++ '\x7d' :: cs) pairs rest) :
    ∃ read, pairs = before ++ read ∧ rest = cs ∧
      List.Forall₂ (Member.ReadAs depth) (m :: ms) read := by
  have hvalue : ReadsLikeSkip (Json.value depth) := (readsOneValue_value depth).likeSkip
  induction ms generalizing m before with
  | nil =>
    obtain ⟨v, after, hends, hv, rfl, rfl⟩ := Member.of_reads_close hvalue rfl h
    exact ⟨[(m.name, v)], rfl, rfl, .cons ⟨rfl, after, hends, hv⟩ .nil⟩
  | cons next others ih =>
    rw [Member.row_append (List.cons_ne_nil next others)] at h
    obtain ⟨v, after, hends, hv, hothers⟩ := Member.of_reads_comma hvalue rfl h
    obtain ⟨read, rfl, rfl, hread⟩ := ih hothers
    exact ⟨(m.name, v) :: read, List.append_assoc _ _ _, rfl, .cons ⟨rfl, after, hends, hv⟩ hread⟩

/-- The members of an object are those that are written. -/
theorem Member.readAs_object
    (h : Reads (object key (memberOf (Json.value depth)) [])
      (inside.1 ++ (Member.row ms ++ '\x7d' :: cs)) pairs rest) :
    List.Forall₂ (Member.ReadAs depth) ms pairs := by
  cases ms with
  | nil =>
    obtain ⟨rfl, -⟩ := reads_object_nil_iff.mp h
    exact .nil
  | cons m ms =>
    obtain ⟨read, rfl, -, hread⟩ := Member.readAs_row (Member.reads_object_iff.mp h)
    cases hread with
    | cons hfirst hothers => exact .cons hfirst hothers

/-- A text that is an object has its members as its value. -/
theorem ObjectText.readAs_of_parse {text : String} {v : Value} (htext : ObjectText text.toList ms)
    (h : Value.parse text = .ok v) :
    ∃ pairs, v = .object pairs ∧ List.Forall₂ (Member.ReadAs 126) ms pairs := by
  obtain ⟨rest, hread, -⟩ := readAll_eq_ok_iff.mp h
  obtain ⟨before, inside, behind, htext⟩ := htext
  have hvalue := ReadsValue.of_valueBy hread
  rw [htext, skipSpace_append_cons before.2 (by decide)] at hvalue
  cases hvalue with
  | object hmembers => exact ⟨_, rfl, Member.readAs_object hmembers⟩
  | number hc => exact absurd hc (by decide)

/-- A text whose value is an object is one. -/
theorem exists_objectText_of_parse {text : String} (h : Value.parse text = .ok (.object pairs)) :
    ∃ ms, ObjectText text.toList ms := by
  obtain ⟨rest, hread, hrest⟩ := readAll_eq_ok_iff.mp h
  obtain ⟨before, hbefore, hcs, -⟩ := exists_space text.toList
  obtain ⟨behind, hbehind, hspace, -⟩ := exists_space rest
  have hvalue := ReadsValue.of_valueBy hread
  generalize skipSpace text.toList = ds at hvalue hcs
  cases hvalue with
  | object hmembers =>
    obtain ⟨inside, ms, -, rfl⟩ :=
      hmembers.exists_members (readsOneValue_value 126) fun _ _ => ⟨_, rfl⟩
    rw [hrest, List.append_nil] at hspace
    exact ⟨ms, ⟨before, hbefore⟩, inside, ⟨behind, hbehind⟩, by rw [hcs, hspace]⟩

end Object

end PlayerText.Json
