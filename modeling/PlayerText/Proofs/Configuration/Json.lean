import PlayerText.Configuration.Json
import PlayerText.Proofs.Json.Text

/-!
# A configuration in writing and in reading

A configuration that is written is read back, whatever its formats hold: they may be empty, hold
quotes, control characters or text that looks like JSON.

* `reads_writeField`: a member is read as the format of its field.
* `reads_writeFields`: the members of some fields, each on a line of its own, are read as their
  formats.
* `read_write`: a written configuration is read back.
-/

namespace PlayerText.Configuration

open Json

section Members

variable {config : Configuration} {given : Given} {f : Field} {space rest : List Char}

theorem ofName?_name (f : Field) : Field.ofName? f.name = some f := by cases f <;> decide

theorem give_of_ne {g : Field} (h : g ≠ f) (format : String) : give given f format g = given g :=
  if_neg h

/-- A member in writing, with what follows it. -/
theorem toList_writeField_append (config : Configuration) (f : Field) (rest : List Char) :
    (config.writeField f).toList ++ rest = [' ', ' '] ++
      ((quote f.name).toList ++ ':' :: ([' '] ++ ((quote (config.get f)).toList ++ rest))) := by
  simp [writeField]

/-- A member is read as the format of its field, if the field was not given before. -/
theorem reads_writeField (hf : given f = none) (hspace : space.all isSpace = true)
    (rest : List Char) :
    Reads (key.andThen (readMember given)) (space ++ ((config.writeField f).toList ++ rest))
      (give given f (config.get f)) rest := by
  have hindent : (space ++ [' ', ' ']).all isSpace = true := by
    rw [List.all_append, hspace]
    rfl
  have hmember : Reads (readMember given f.name)
      (':' :: ([' '] ++ ((quote (config.get f)).toList ++ rest)))
      (give given f (config.get f)) rest := by
    have hvalue : Reads stringValue ([' '] ++ ((quote (config.get f)).toList ++ rest))
        (config.get f) rest := reads_stringValue (config.get f) rfl rest
    simpa [readMember, ofName?_name, hf] using (hvalue.map (give given f)).afterColon
  rw [toList_writeField_append, ← List.append_assoc space]
  exact (reads_key f.name hindent _).andThen hmember

/-- The formats of some fields, after those that are given. -/
def giveAll (config : Configuration) (given : Given) (fields : List Field) : Given :=
  fields.foldl (fun given f => give given f (config.get f)) given

/-- The lines of some fields. -/
def writeFields (config : Configuration) (fields : List Field) : String :=
  ",\n".intercalate (fields.map config.writeField)

theorem toList_writeFields_append (config : Configuration) (f g : Field) (fields : List Field)
    (rest : List Char) :
    (config.writeFields (f :: g :: fields)).toList ++ rest =
      (config.writeField f).toList ++
        ([] ++ ',' :: (['\n'] ++ ((config.writeFields (g :: fields)).toList ++ rest))) := by
  simp [writeFields, String.intercalate_cons_cons]

/-- The members of some fields, each on a line of its own, are read as their formats. -/
theorem reads_writeFields (config : Configuration) {fields : List Field}
    (hnodup : (f :: fields).Nodup) (hgiven : ∀ g ∈ f :: fields, given g = none)
    (hspace : space.all isSpace = true) (rest : List Char) :
    Reads (members key readMember given)
      (space ++ ((config.writeFields (f :: fields)).toList ++ (['\n'] ++ '\x7d' :: rest)))
      (config.giveAll given (f :: fields)) rest := by
  have hf : given f = none := hgiven f List.mem_cons_self
  induction fields generalizing f given space with
  | nil =>
    have hmark : Reads (separator '\x7d') (['\n'] ++ '\x7d' :: rest) false rest :=
      reads_separator_close rfl (by decide) (by decide) rest
    exact (reads_writeField hf hspace _).members_last hmark
  | cons g fields ih =>
    obtain ⟨hfg, hnodup⟩ := List.nodup_cons.mp hnodup
    have hothers : ∀ h ∈ g :: fields, give given f (config.get f) h = none := by
      intro h hmem
      rw [give_of_ne (ne_of_mem_of_not_mem hmem hfg)]
      exact hgiven h (List.mem_cons_of_mem f hmem)
    rw [toList_writeFields_append]
    refine (reads_writeField hf hspace _).members_cons
      (reads_separator_comma rfl '\x7d' _) ?_
    exact ih hnodup hothers rfl (hothers g List.mem_cons_self)

end Members

/-- The formats of all fields are the configuration. -/
theorem ofGiven_giveAll (config : Configuration) (given : Given) :
    ofGiven (config.giveAll given Field.all) = config := rfl

theorem toList_write (config : Configuration) : config.write.toList =
    [] ++ '\x7b' :: (['\n'] ++ ((config.writeFields Field.all).toList ++
      (['\n'] ++ '\x7d' :: []))) := by
  simp [write, writeFields]

/-- A written configuration is read back. -/
theorem read_write (config : Configuration) : read config.write = .ok config := by
  have hmembers : Reads (members key readMember fun _ => none)
      (['\n'] ++ ((config.writeFields Field.all).toList ++ (['\n'] ++ '\x7d' :: [])))
      (config.giveAll (fun _ => none) Field.all) [] :=
    reads_writeFields config (by decide) (fun _ _ => rfl) rfl []
  have hopen : closes? '\x7d'
      (['\n'] ++ ((config.writeFields Field.all).toList ++ (['\n'] ++ '\x7d' :: []))) = none := by
    rw [Field.all, toList_writeFields_append, toList_writeField_append, toList_quote_append]
    exact @closes?_eq_none ['\n', ' ', ' '] '"' '\x7d' rfl (by decide) (by decide) _
  have hobject := ((hmembers.object hopen).map ofGiven).after_expect '\x7b'
  rw [ofGiven_giveAll] at hobject
  have hreader : Reads reader config.write.toList config [] := by
    rw [toList_write]
    refine Reads.spaced ?_ rfl (by decide)
    obtain ⟨shorter, hread⟩ := hobject
    exact ⟨shorter, (if_pos rfl).trans hread⟩
  exact hreader.readAll rfl

end PlayerText.Configuration
