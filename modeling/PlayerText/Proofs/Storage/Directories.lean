import PlayerText.Proofs.Storage.FileSystem

/-!
# What making directories and writing files change

Making directories adds them where nothing stood, whether it succeeds or fails half-way. Writing a
file changes one place, where no directory stands. Neither takes a directory away, so what a path
named before is what it names later.

* `GrowsTo`, `Puts`: nothing but directories is new; one place holds another file.
* `Ensures`: what becomes of a directory that is to be made.
* `makeDirectories_grows`: making directories only adds directories.
* `makeDirectories_again`: a directory that was made is found by everyone who makes it again.
* `placeOf?`, `puts_of_write`: the place that a path names, and what a write does there.
-/

namespace PlayerText.Storage.FileSystem

variable {fs later changed : FileSystem} {place : Place} {path : Path}

/-- Every place is as before, but that directories are made where nothing stood. -/
def GrowsTo (fs later : FileSystem) : Prop :=
  ∀ place, later.at? place = fs.at? place ∨
    fs.at? place = none ∧ later.at? place = some .directory

namespace GrowsTo

theorem refl (fs : FileSystem) : fs.GrowsTo fs := fun _ => .inl rfl

theorem trans {last : FileSystem} (h : fs.GrowsTo later) (hlast : later.GrowsTo last) :
    fs.GrowsTo last := by
  intro place
  rcases h place with hsame | ⟨hnone, hdir⟩
  · rw [← hsame]
    exact hlast place
  · refine .inr ⟨hnone, ?_⟩
    rcases hlast place with hsame | ⟨hfree, -⟩
    · rw [hsame, hdir]
    · rw [hdir] at hfree
      cases hfree

/-- What stands somewhere stays there. -/
theorem at?_eq {entry : Entry} (h : fs.GrowsTo later) (hentry : fs.at? place = some entry) :
    later.at? place = some entry := by
  rcases h place with hsame | ⟨hnone, -⟩
  · rw [hsame, hentry]
  · rw [hentry] at hnone
    cases hnone

theorem keeps (h : fs.GrowsTo later) : fs.Keeps later := fun _ hdir => h.at?_eq hdir

end GrowsTo

/-- A place holds a file, where no directory stood, and every other place is as before. -/
structure Puts (fs : FileSystem) (place : Place) (content : ByteArray) (changed : FileSystem) :
    Prop where
  free : fs.at? place ≠ some .directory
  at?_eq : ∀ p, changed.at? p = if p = place then some (.file content) else fs.at? p

namespace Puts

variable {content : ByteArray}

theorem at?_place (h : fs.Puts place content changed) :
    changed.at? place = some (.file content) := by
  rw [h.at?_eq, if_pos rfl]

theorem at?_of_ne {p : Place} (h : fs.Puts place content changed) (hp : p ≠ place) :
    changed.at? p = fs.at? p := by
  rw [h.at?_eq, if_neg hp]

theorem keeps (h : fs.Puts place content changed) : fs.Keeps changed := by
  intro p hdir
  have hp : p ≠ place := by
    rintro rfl
    exact h.free hdir
  rw [h.at?_of_ne hp, hdir]

end Puts

/-! ## What a path names -/

theorem Keeps.refl (fs : FileSystem) : fs.Keeps fs := fun _ hdir => hdir

theorem Keeps.trans {last : FileSystem} (h : fs.Keeps later) (hlast : later.Keeps last) :
    fs.Keeps last := fun place hdir => hlast place (h place hdir)

/-- What a path names is a place, and what it can mean there. -/
theorem exists_resolve_of_locate {asDirectory : Bool}
    (h : fs.locate path = .ok (place, asDirectory)) :
    ∃ target, fs.resolve path = .ok target ∧ target.place = .ok place ∧
      target.asDirectory = asDirectory := by
  obtain ⟨target, hresolve, h⟩ := exists_of_bind_eq_ok h
  obtain ⟨found, hplace, h⟩ := exists_of_bind_eq_ok h
  cases h
  exact ⟨target, hresolve, hplace, rfl⟩

theorem Keeps.locate {found : Place × Bool} (h : fs.Keeps later)
    (hlocate : fs.locate path = .ok found) : later.locate path = .ok found := by
  obtain ⟨place, asDirectory⟩ := found
  obtain ⟨target, hresolve, hplace, hdir⟩ := exists_resolve_of_locate hlocate
  subst hdir
  simp only [FileSystem.locate, h.resolve hresolve, hplace, bind, Except.bind]
  rfl

theorem isDirectory_iff : fs.isDirectory path = true ↔
    ∃ place asDirectory, fs.locate path = .ok (place, asDirectory) ∧
      fs.at? place = some .directory := by
  unfold FileSystem.isDirectory
  constructor
  · intro h
    split at h
    · next place asDirectory hlocate =>
      refine ⟨place, asDirectory, hlocate, ?_⟩
      cases hentry : fs.at? place with
      | none => rw [hentry] at h; cases h
      | some entry =>
        rw [hentry] at h
        cases entry with
        | file => cases h
        | directory => rfl
    · cases h
  · rintro ⟨place, asDirectory, hlocate, hdir⟩
    rw [hlocate]
    simp only [hdir]
    rfl

/-- A path that names a directory goes on naming it. -/
theorem Keeps.isDirectory (h : fs.Keeps later) (hdir : fs.isDirectory path = true) :
    later.isDirectory path = true := by
  obtain ⟨place, asDirectory, hlocate, hplace⟩ := isDirectory_iff.mp hdir
  exact isDirectory_iff.mpr ⟨place, asDirectory, h.locate hlocate, h place hplace⟩

/-! ## Making directories -/

/-- A path that names the root, `.` or `..` names a directory. -/
theorem isDirectory_of_resolve_itself {directory : Place}
    (h : fs.resolve path = .ok (.itself directory)) : fs.at? directory = some .directory := by
  simp only [FileSystem.resolve] at h
  split at h
  · cases h
    rfl
  · split at h
    · obtain ⟨place, hwalk, htarget⟩ := exists_of_map_eq_ok h
      cases htarget
      exact isDirectory_of_walk hwalk
    · obtain ⟨place, -, htarget⟩ := exists_of_map_eq_ok h
      cases htarget

/-- A directory is made at a name in a directory that is there, where nothing stood. -/
theorem exists_insert_of_makeDirectory (h : fs.makeDirectory path = .ok changed) :
    ∃ directory name asDirectory, fs.locate path = .ok (name :: directory, asDirectory) ∧
      fs.at? directory = some .directory ∧ fs.at? (name :: directory) = none ∧
      changed = fs.insert (name :: directory) (some .directory) := by
  obtain ⟨⟨place, asDirectory⟩, hlocate, h⟩ := exists_of_bind_eq_ok h
  obtain ⟨target, hresolve, hplace, -⟩ := exists_resolve_of_locate hlocate
  simp only at h
  split at h
  · cases h
  · next hfree =>
    rw [Option.not_isSome_iff_eq_none] at hfree
    cases target with
    | itself directory =>
      cases hplace
      rw [isDirectory_of_resolve_itself hresolve] at hfree
      cases hfree
    | named directory name slash =>
      obtain ⟨_, -, rfl⟩ := exists_of_map_eq_ok hplace
      exact ⟨directory, name, asDirectory, hlocate, isDirectory_of_resolve hresolve, hfree,
        (Except.ok.inj h).symm⟩

/-- Making one directory adds it, and nothing else. -/
theorem grows_of_makeDirectory (h : fs.makeDirectory path = .ok changed) :
    fs.GrowsTo changed ∧ changed.isDirectory path = true := by
  obtain ⟨directory, name, asDirectory, hlocate, hparent, hnone, rfl⟩ :=
    exists_insert_of_makeDirectory h
  have hfree : fs.at? (name :: directory) ≠ some .directory := by simp [hnone]
  have hat := at?_insert hparent hfree (some .directory)
  have hgrows : fs.GrowsTo (fs.insert (name :: directory) (some .directory)) := by
    intro place
    by_cases hplace : place = name :: directory
    · subst hplace
      exact .inr ⟨hnone, by rw [hat, if_pos rfl]⟩
    · exact .inl (by rw [hat, if_neg hplace])
  refine ⟨hgrows, isDirectory_iff.mpr ⟨_, asDirectory, hgrows.keeps.locate hlocate, ?_⟩⟩
  rw [hat, if_pos rfl]

/-- A directory that is there is not made again. -/
theorem tryDirectory_of_isDirectory (h : fs.isDirectory path = true) :
    fs.tryDirectory path = (.ok (), fs) := by
  obtain ⟨place, asDirectory, hlocate, hdir⟩ := isDirectory_iff.mp h
  have hmake : fs.makeDirectory path = .error .alreadyExists := by
    simp only [makeDirectory, hlocate, hdir, bind, Except.bind]
    rfl
  have hensure : fs.ensureDirectory path = .ok fs := by
    simp only [ensureDirectory, hmake]
    exact if_pos h
  rw [tryDirectory, hensure]

/-- A directory is made or not: only directories are added, and on success the path names one. -/
structure Ensures (fs : FileSystem) (path : Path) (outcome : Except IoError Unit × FileSystem) :
    Prop where
  grows : fs.GrowsTo outcome.2
  isDirectory : outcome.1 = .ok () → outcome.2.isDirectory path = true

/-- Nothing is known of the directory where it could not be made. -/
theorem GrowsTo.ensures_error (h : fs.GrowsTo later) (path : Path) (cause : IoError) :
    fs.Ensures path (.error cause, later) := by
  refine ⟨h, fun hok => ?_⟩
  cases hok

theorem tryDirectory_ensures (fs : FileSystem) (path : Path) :
    fs.Ensures path (fs.tryDirectory path) := by
  by_cases hdir : fs.isDirectory path = true
  · rw [tryDirectory_of_isDirectory hdir]
    exact ⟨.refl fs, fun _ => hdir⟩
  · cases hmake : fs.makeDirectory path with
    | ok made =>
      have hensure : fs.ensureDirectory path = .ok made := by rw [ensureDirectory, hmake]
      obtain ⟨hgrows, hthere⟩ := grows_of_makeDirectory hmake
      rw [tryDirectory, hensure]
      exact ⟨hgrows, fun _ => hthere⟩
    | error cause =>
      have hensure : fs.ensureDirectory path = .error cause := by
        simp only [ensureDirectory, hmake]
        exact if_neg hdir
      rw [tryDirectory, hensure]
      exact (GrowsTo.refl fs).ensures_error path cause

/-- Only where a directory on the way is missing, those on the way are made first. -/
theorem ensureAll_cons (fs : FileSystem) (path : Path) (name : String) (outer : List String) :
    fs.ensureAll path (name :: outer) = fs.tryDirectory path ∨
      (∃ made, fs.ensureAll outer.reverse outer = (.ok (), made) ∧
        fs.ensureAll path (name :: outer) = made.tryDirectory path) ∨
      ∃ cause made, fs.ensureAll outer.reverse outer = (.error cause, made) ∧
        fs.ensureAll path (name :: outer) = (.error cause, made) := by
  rw [ensureAll]
  split
  · obtain ⟨result, made⟩ := fs.ensureAll outer.reverse outer
    cases result with
    | ok => exact .inr (.inl ⟨made, rfl, rfl⟩)
    | error cause => exact .inr (.inr ⟨cause, made, rfl, rfl⟩)
  · exact .inl rfl

theorem ensureAll_ensures (fs : FileSystem) (path : Path) (names : List String) :
    fs.Ensures path (fs.ensureAll path names) := by
  -- By induction on the directories on the way, the innermost first. What fails further out can
  -- have made some of them, so the tree has to grow whether or not all are made.
  induction names generalizing path with
  | nil => exact tryDirectory_ensures fs path
  | cons name outer ih =>
    rcases ensureAll_cons fs path name outer with h | ⟨made, houter, h⟩ | ⟨cause, made, houter, h⟩
    · rw [h]
      exact tryDirectory_ensures fs path
    · have hmade := (ih outer.reverse).grows
      rw [houter] at hmade
      obtain ⟨hgrows, hthere⟩ := tryDirectory_ensures made path
      rw [h]
      exact ⟨hmade.trans hgrows, hthere⟩
    · have hmade := (ih outer.reverse).grows
      rw [houter] at hmade
      rw [h]
      exact hmade.ensures_error path cause

theorem ensureAll_of_isDirectory (h : fs.isDirectory path = true) (names : List String) :
    fs.ensureAll path names = (.ok (), fs) := by
  cases names with
  | nil => exact tryDirectory_of_isDirectory h
  | cons name outer => rw [ensureAll, tryDirectory_of_isDirectory h]

/-- Making directories only adds directories, even where it fails. -/
theorem makeDirectories_grows (fs : FileSystem) (path : String) :
    fs.GrowsTo (fs.makeDirectories path).2 := by
  unfold makeDirectories
  split
  · exact .refl fs
  · split
    · exact (ensureAll_ensures fs _ _).grows
    · exact .refl fs

/-- A directory that was made is there for everyone who makes it later. -/
theorem makeDirectories_again {path : String} {made : FileSystem}
    (h : fs.makeDirectories path = (.ok (), made)) (hkeeps : made.Keeps later) :
    later.makeDirectories path = (.ok (), later) := by
  unfold makeDirectories at h ⊢
  split at h
  · rw [if_pos ‹_›]
  · rw [if_neg ‹_›]
    split at h
    · next parts hparts =>
      have hmade := (ensureAll_ensures fs parts parts.names.reverse).isDirectory
      rw [h] at hmade
      exact ensureAll_of_isDirectory (hkeeps.isDirectory (hmade rfl)) _
    · cases h

/-! ## Files -/

/-- The place that a path names. -/
def placeOf? (fs : FileSystem) (path : String) : Option Place :=
  match Path.ofText path >>= fs.locate with
  | .ok (place, _) => some place
  | .error _ => none

theorem placeOf?_of_locate {path : String} {parts : Path} {asDirectory : Bool}
    (hparts : Path.ofText path = .ok parts) (hlocate : fs.locate parts = .ok (place, asDirectory)) :
    fs.placeOf? path = some place := by
  simp only [placeOf?, hparts, hlocate, bind, Except.bind]

/-- A write puts a file where its path leads, before as well as after. -/
theorem puts_of_write {path : String} {content : ByteArray}
    (h : fs.write path content = .ok changed) :
    ∃ parts place, Path.ofText path = .ok parts ∧ changed.locate parts = .ok (place, false) ∧
      fs.Puts place content changed := by
  obtain ⟨parts, directory, name, hparts, hresolve, hname, hfree, rfl⟩ := exists_insert_of_write h
  have hat := at?_insert (isDirectory_of_resolve hresolve) hfree (some (.file content))
  have hputs : fs.Puts (name :: directory) content
      (fs.insert (name :: directory) (some (.file content))) := ⟨hfree, hat⟩
  exact ⟨parts, name :: directory, hparts,
    hputs.keeps.locate (locate_eq_of_resolve hresolve hname), hputs⟩

end PlayerText.Storage.FileSystem
