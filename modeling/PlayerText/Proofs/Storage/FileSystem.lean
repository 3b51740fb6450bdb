import PlayerText.Storage.Action

/-!
# Reading a file that was written

A write adds a file and takes no directory away, so every path that led to a place still leads
there, and the file is found where it was put.

* `step_eq_ok_iff`: what a step along a path can do.
* `isDirectory_of_walk`: a walk ends in a directory.
* `Keeps`: all directories of a tree are still there later.
* `Keeps.walk`, `Keeps.resolve`: a path still leads to the same place.
* `exists_insert_of_write`: what a write does.
* `read_of_write`, `readText_of_read`: a file holds what was written to it.
* `Action.bind_of_ok`, `Action.bind_of_error`, `Action.ofRead_of_ok`, `Action.ok_of_ofWrite`: the
  steps of an action.
-/

namespace PlayerText.Storage

section Outcomes

variable {ε α β : Type} {b : β}

theorem exists_of_bind_eq_ok {x : Except ε α} {f : α → Except ε β} (h : x >>= f = .ok b) :
    ∃ a, x = .ok a ∧ f a = .ok b := by
  cases x with
  | error e => cases h
  | ok a => exact ⟨a, rfl, h⟩

theorem exists_of_map_eq_ok {x : Except ε α} {f : α → β} (h : x.map f = .ok b) :
    ∃ a, x = .ok a ∧ f a = b := by
  cases x with
  | error e => cases h
  | ok a => exact ⟨a, rfl, Except.ok.inj h⟩

end Outcomes

namespace FileSystem

variable {fs later changed : FileSystem} {place next directory : Place} {part name : String}
  {path : Path}

/-! ## Following a path -/

/-- What a step can do: stay, go up, or go into a directory that is there. -/
theorem step_eq_ok_iff : fs.step place part = .ok next ↔
    (Path.isIdle part = true ∧ next = place) ∨ (part = ".." ∧ next = place.tail) ∨
      (Path.isIdle part = false ∧ part ≠ "..") ∧ checkName part = .ok () ∧
        next = part :: place ∧ fs.at? (part :: place) = some .directory := by
  unfold step
  by_cases hidle : Path.isIdle part = true
  · have hup : part ≠ ".." := by
      rintro rfl
      exact absurd hidle (by decide)
    simp [hidle, hup, eq_comm]
  by_cases hup : part = ".."
  · simp [hup, show Path.isIdle ".." = false by decide, eq_comm]
  rw [if_neg hidle, if_neg hup]
  rcases checkName part with _ | _
  · simp [hidle, hup, bind, Except.bind]
  · rcases fs.at? (part :: place) with _ | _ | _ <;>
      simp [hidle, hup, bind, Except.bind, eq_comm]

/-- Only a directory has something in it. -/
theorem isDirectory_of_child (h : fs.at? (name :: directory) = some .directory) :
    fs.at? directory = some .directory := by
  rw [at?, List.reverse_cons, Node.find?_append] at h
  refine Classical.byContradiction fun hparent => ?_
  rw [Node.find?_cons_of_ne hparent] at h
  cases h

/-- A step goes from a directory to a directory. -/
theorem isDirectory_of_step (h : fs.at? place = some .directory)
    (hstep : fs.step place part = .ok next) : fs.at? next = some .directory := by
  obtain ⟨-, rfl⟩ | ⟨-, rfl⟩ | ⟨-, -, rfl, hnext⟩ := step_eq_ok_iff.mp hstep
  · exact h
  · cases place with
    | nil => exact h
    | cons name directory => exact isDirectory_of_child h
  · exact hnext

/-- A walk ends in a directory. -/
theorem isDirectory_of_walk (h : fs.walk path = .ok place) : fs.at? place = some .directory := by
  rw [walk_eq] at h
  have hroot : fs.at? [] = some .directory := rfl
  generalize [] = start at h hroot
  induction path generalizing start with
  | nil => exact Except.ok.inj h ▸ hroot
  | cons part path ih =>
    rw [List.foldlM_cons] at h
    obtain ⟨next, hstep, hothers⟩ := exists_of_bind_eq_ok h
    exact ih next hothers (isDirectory_of_step hroot hstep)

/-! ## Trees that keep their directories -/

/-- All directories are still there later. -/
def Keeps (fs later : FileSystem) : Prop :=
  ∀ place, fs.at? place = some .directory → later.at? place = some .directory

/-- A step that was possible still leads to the same place. -/
theorem Keeps.step (h : fs.Keeps later) (hstep : fs.step place part = .ok next) :
    later.step place part = .ok next := by
  rw [step_eq_ok_iff] at hstep ⊢
  exact hstep.imp_right (Or.imp_right fun ⟨hpart, hname, hnext, hdir⟩ =>
    ⟨hpart, hname, hnext, h _ hdir⟩)

theorem Keeps.walk (h : fs.Keeps later) (hwalk : fs.walk path = .ok place) :
    later.walk path = .ok place := by
  rw [walk_eq] at hwalk ⊢
  generalize [] = start at hwalk ⊢
  induction path generalizing start with
  | nil => exact hwalk
  | cons part path ih =>
    rw [List.foldlM_cons] at hwalk ⊢
    obtain ⟨next, hstep, hothers⟩ := exists_of_bind_eq_ok hwalk
    rw [h.step hstep]
    exact ih next hothers

theorem Keeps.resolve {target : Target} (h : fs.Keeps later)
    (hresolve : fs.resolve path = .ok target) : later.resolve path = .ok target := by
  simp only [FileSystem.resolve] at hresolve ⊢
  split at hresolve
  · exact hresolve
  · split at hresolve
    · obtain ⟨place, hwalk, rfl⟩ := exists_of_map_eq_ok hresolve
      rw [if_pos ‹_›, h.walk hwalk]
      rfl
    · obtain ⟨place, hwalk, rfl⟩ := exists_of_map_eq_ok hresolve
      rw [if_neg ‹_›, h.walk hwalk]
      rfl

/-- A name is looked for in a directory that is there. -/
theorem isDirectory_of_resolve {slash : Bool}
    (h : fs.resolve path = .ok (.named directory name slash)) :
    fs.at? directory = some .directory := by
  simp only [FileSystem.resolve] at h
  split at h
  · cases h
  · split at h
    · obtain ⟨place, -, htarget⟩ := exists_of_map_eq_ok h
      cases htarget
    · obtain ⟨place, hwalk, htarget⟩ := exists_of_map_eq_ok h
      cases htarget
      exact isDirectory_of_walk hwalk

/-! ## Writing and reading -/

/-- A name with nothing behind it is located in its directory. -/
theorem locate_eq_of_resolve {slash : Bool}
    (hresolve : fs.resolve path = .ok (.named directory name slash))
    (hname : checkName name = .ok ()) : fs.locate path = .ok (name :: directory, slash) := by
  simp only [locate, hresolve, Target.place, hname, bind, Except.bind]
  rfl

/-- A file is read where its path leads. -/
theorem read_eq_of_locate {path : String} {parts : Path} {content : ByteArray}
    (hparts : Path.ofText path = .ok parts) (hlocate : fs.locate parts = .ok (place, false))
    (hfile : fs.at? place = some (.file content)) : fs.read path = .ok content := by
  simp only [read, hparts, hlocate, hfile, bind, Except.bind]
  rfl

/-- A write puts a file into a directory that is there, where no directory is. -/
theorem exists_insert_of_write {path : String} {content : ByteArray}
    (h : fs.write path content = .ok changed) :
    ∃ parts directory name, Path.ofText path = .ok parts ∧
      fs.resolve parts = .ok (.named directory name false) ∧ checkName name = .ok () ∧
      fs.at? (name :: directory) ≠ some .directory ∧
      changed = fs.insert (name :: directory) (some (.file content)) := by
  obtain ⟨target, hpath, h⟩ := exists_of_bind_eq_ok h
  obtain ⟨parts, hparts, hresolve⟩ := exists_of_bind_eq_ok hpath
  obtain directory | ⟨directory, name, _ | _⟩ := target
  · cases h
  · obtain ⟨place, hplace, h⟩ := exists_of_bind_eq_ok h
    obtain ⟨_, hname, rfl⟩ := exists_of_map_eq_ok hplace
    split at h
    · cases h
    · next hfree =>
      refine ⟨parts, directory, name, hparts, hresolve, hname, ?_, (Except.ok.inj h).symm⟩
      intro hdir
      exact hfree (by rw [hdir]; rfl)
  · cases h

/-- A new entry takes no directory away. -/
theorem keeps_insert (hparent : fs.at? directory = some .directory)
    (hfree : fs.at? (name :: directory) ≠ some .directory) (entry : Option Entry) :
    fs.Keeps (fs.insert (name :: directory) entry) := by
  intro place hplace
  have hne : place ≠ name :: directory := by
    rintro rfl
    exact hfree hplace
  rw [at?_insert hparent hfree, if_neg hne, hplace]

/-- A file holds what was written to it. -/
theorem read_of_write {path : String} {content : ByteArray}
    (h : fs.write path content = .ok changed) : changed.read path = .ok content := by
  obtain ⟨parts, directory, name, hparts, hresolve, hname, hfree, rfl⟩ := exists_insert_of_write h
  have hparent : fs.at? directory = some .directory := isDirectory_of_resolve hresolve
  have hthere := (keeps_insert hparent hfree (some (.file content))).resolve hresolve
  refine read_eq_of_locate hparts (locate_eq_of_resolve hthere hname) ?_
  rw [at?_insert hparent hfree, if_pos rfl]

/-- A text that was encoded is decoded. -/
theorem readText_of_read {path text : String} (h : fs.read path = .ok text.toUTF8) :
    fs.readText path = .ok text := by
  have hdecode : String.fromUTF8? text.toUTF8 = some text := dif_pos text.isValidUTF8
  simp only [readText, h, hdecode, bind, Except.bind]

end FileSystem

/-! ## Actions -/

namespace Action

variable {α β : Type} {fs after : FileSystem} {a : α}

/-- After an action that gave a value, the next one goes on with the tree that it left. -/
theorem bind_of_ok {action : Action α} (h : action fs = (.ok a, after)) (next : α → Action β) :
    (action >>= next) fs = next a after := by
  change ExceptT.bindCont next (action fs).1 (action fs).2 = _
  rw [h]
  rfl

/-- After an action that failed there is no next one. -/
theorem bind_of_error {action : Action α} {cause : Error} (h : action fs = (.error cause, after))
    (next : α → Action β) : (action >>= next) fs = (.error cause, after) := by
  change ExceptT.bindCont next (action fs).1 (action fs).2 = _
  rw [h]
  rfl

theorem ofRead_of_ok {look : FileSystem → Except IoError α} (h : look fs = .ok a) :
    ofRead look fs = (.ok a, fs) := by
  rw [ofRead, h]
  rfl

/-- A change is made as a whole, or nothing is changed. -/
theorem ofWrite_cases (change : FileSystem → Except IoError FileSystem) (fs : FileSystem) :
    (∃ cause, change fs = .error cause ∧ ofWrite change fs = (.error (.io cause), fs)) ∨
      ∃ changed, change fs = .ok changed ∧ ofWrite change fs = (.ok (), changed) := by
  unfold ofWrite
  cases change fs with
  | error cause => exact .inl ⟨cause, rfl, rfl⟩
  | ok changed => exact .inr ⟨changed, rfl, rfl⟩

theorem ok_of_ofWrite {change : FileSystem → Except IoError FileSystem}
    (h : ofWrite change fs = (.ok (), after)) : change fs = .ok after := by
  obtain ⟨cause, -, hwrite⟩ | ⟨changed, hchange, hwrite⟩ := ofWrite_cases change fs
  · rw [h] at hwrite
    cases hwrite
  · rw [h] at hwrite
    cases hwrite
    exact hchange

end Action

end PlayerText.Storage
