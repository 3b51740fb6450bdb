import PlayerText.Storage.Path
import PlayerText.Storage.Tree

/-!
# A file system

What the store of configurations needs of a file system: a tree of directories, with files that hold
bytes.

* `FileSystem.at?`: what stands at a place.
* `FileSystem.resolve`, `FileSystem.locate`: the place that a path names.
* `FileSystem.read`, `FileSystem.write`, `FileSystem.remove`: a file as a whole.
* `FileSystem.makeDirectory`, `FileSystem.makeDirectories`: one directory, or all on the way.
* `at?_insert`: what a change does to every place.
* `walk_eq`: a walk, told by what stands at each place.
-/

namespace PlayerText.Storage

/-- A place in the tree: the names on the way to it, the last one first. -/
abbrev Place := List String

/-- Whether an entry is a directory. -/
def Entry.isDirectory : Option Entry → Bool
  | some .directory => true
  | _ => false

/-- The tree below the root. -/
structure FileSystem where
  /-- What is in the root. -/
  root : Folder

/-- The way to a directory: the names on it with their nodes, the last one first. -/
abbrev Trail := List (String × Folder)

/-- Where a way leads. -/
def Trail.place (trail : Trail) : Place := trail.map (·.1)

/-- What a path names. -/
inductive Target where
  /-- A directory that is there: the root, or one at `.` or `..`. -/
  | itself (directory : Place)
  /-- A name in a directory that is there. If a slash follows the name, it can only mean a
  directory. -/
  | named (directory : Place) (name : String) (slash : Bool)

/-- How many bytes a name may have. -/
def maxNameLength : Nat := 255

/-- Fails for a name that is too long. -/
def checkName (name : String) : Except IoError Unit :=
  if maxNameLength < name.utf8ByteSize then .error .nameTooLong else .ok ()

namespace Target

/-- The place that a path names. -/
def place : Target → Except IoError Place
  | .itself directory => .ok directory
  | .named directory name _ => (checkName name).map fun _ => name :: directory

/-- Whether a path can only mean a directory. -/
def asDirectory : Target → Bool
  | .itself _ => true
  | .named _ _ slash => slash

end Target

namespace FileSystem

/-- The tree with nothing but its root. -/
def empty : FileSystem := ⟨[]⟩

/-- The root as a node. -/
def node (fs : FileSystem) : Node := .directory fs.root

/-- What stands at a place. -/
def at? (fs : FileSystem) (place : Place) : Option Entry :=
  (Node.find? place.reverse (some fs.node)).map Node.entry

/-- The tree with another entry, or none, at a place; only a directory takes one. -/
def insert (fs : FileSystem) (place : Place) (entry : Option Entry) : FileSystem :=
  match Node.graft (entry.map Entry.node) place.reverse (some fs.node) with
  | some (.directory children) => ⟨children⟩
  | _ => fs

/-- A new entry in a directory that is there, where no directory was, changes its own place and no
other. -/
theorem at?_insert {fs : FileSystem} {directory : Place} {name : String}
    (parent : fs.at? directory = some .directory)
    (free : fs.at? (name :: directory) ≠ some .directory) (entry : Option Entry) (p : Place) :
    (fs.insert (name :: directory) entry).at? p =
      if p = name :: directory then entry else fs.at? p := by
  obtain ⟨node, found, isDirectory⟩ := Option.map_eq_some_iff.1 parent
  obtain _ | folder := node
  · cases isDirectory
  · have free' : (folder.lookup name).map Node.entry ≠ some .directory := by
      simpa [at?, Node.find?_append, found, Node.find?] using free
    have changed := Node.find?_graft found free' entry p.reverse
    have inserted : some (fs.insert (name :: directory) entry).node =
        Node.graft (entry.map Entry.node) (directory.reverse ++ [name]) (some fs.node) := by
      unfold insert
      rw [List.reverse_cons]
      cases directory.reverse <;> rfl
    rw [at?, inserted, changed]
    simp only [← List.reverse_cons, List.reverse_inj]
    rfl

/-! ## Finding a place -/

/-- The nodes of the directory at the end of a way. -/
def folder (fs : FileSystem) : Trail → Folder
  | [] => fs.root
  | (_, children) :: _ => children

/-- One step along a path that has to end in a directory. -/
def enter (fs : FileSystem) (trail : Trail) (part : String) : Except IoError Trail :=
  if Path.isIdle part then .ok trail
  else if part = ".." then .ok trail.tail
  else do
    checkName part
    match (fs.folder trail).lookup part with
    | some (.directory children) => .ok ((part, children) :: trail)
    | some (.file _) => .error .notADirectory
    | none => .error .notFound

/-- The directory that a path names. -/
def walk (fs : FileSystem) (path : Path) : Except IoError Place :=
  (path.foldlM fs.enter []).map Trail.place

/-- One step from a place, told by what stands at the next. -/
def step (fs : FileSystem) (place : Place) (part : String) : Except IoError Place :=
  if Path.isIdle part then .ok place
  else if part = ".." then .ok place.tail
  else do
    checkName part
    match fs.at? (part :: place) with
    | some .directory => .ok (part :: place)
    | some (.file _) => .error .notADirectory
    | none => .error .notFound

/-- Whether each node of a way is in the directory before it. -/
def Leads (fs : FileSystem) : Trail → Prop
  | [] => True
  | (name, children) :: before =>
    (fs.folder before).lookup name = some (.directory children) ∧ fs.Leads before

theorem Leads.tail {fs : FileSystem} {trail : Trail} (h : fs.Leads trail) :
    fs.Leads trail.tail := by
  cases trail with
  | nil => exact h
  | cons => exact h.2

/-- A way leads to the directory at its place. -/
theorem Leads.find? {fs : FileSystem} {trail : Trail} (h : fs.Leads trail) :
    Node.find? trail.place.reverse (some fs.node) = some (.directory (fs.folder trail)) := by
  induction trail with
  | nil => rfl
  | cons last before ih =>
    rw [Trail.place, List.map_cons, List.reverse_cons, Node.find?_append, ← Trail.place, ih h.2]
    simp only [Node.find?, h.1]
    rfl

theorem Leads.at? {fs : FileSystem} {trail : Trail} (h : fs.Leads trail) (name : String) :
    fs.at? (name :: trail.place) = ((fs.folder trail).lookup name).map Node.entry := by
  rw [FileSystem.at?, List.reverse_cons, Node.find?_append, h.find?]
  rfl

theorem Leads.of_enter {fs : FileSystem} {trail next : Trail} {part : String}
    (h : fs.Leads trail) (entered : fs.enter trail part = .ok next) : fs.Leads next := by
  unfold FileSystem.enter at entered
  split at entered
  · cases entered; exact h
  · split at entered
    · cases entered; exact h.tail
    · cases named : checkName part with
      | error cause => rw [named] at entered; cases entered
      | ok =>
        simp only [named, bind, Except.bind] at entered
        split at entered
        · next found => cases entered; exact ⟨found, h⟩
        · cases entered
        · cases entered

theorem Leads.place_enter {fs : FileSystem} {trail : Trail} (h : fs.Leads trail) (part : String) :
    (fs.enter trail part).map Trail.place = fs.step trail.place part := by
  unfold FileSystem.enter step
  split
  · rfl
  · split
    · cases trail <;> rfl
    · cases checkName part with
      | error => rfl
      | ok =>
        rw [h.at?]
        rcases (fs.folder trail).lookup part with _ | _ | _ <;> rfl

/-- A walk goes from place to place by what stands there. -/
theorem walk_eq (fs : FileSystem) (path : Path) : fs.walk path = path.foldlM fs.step [] := by
  have from_trail : ∀ trail, fs.Leads trail →
      (path.foldlM fs.enter trail).map Trail.place = path.foldlM fs.step trail.place := by
    induction path with
    | nil => intro _ _; rfl
    | cons part r ih =>
      intro trail h
      rw [List.foldlM_cons, List.foldlM_cons, ← h.place_enter part]
      cases entered : fs.enter trail part with
      | error => rfl
      | ok next => exact ih next (h.of_enter entered)
  exact from_trail [] trivial

/-- What a path names. All but the last part have to be directories. -/
def resolve (fs : FileSystem) (path : Path) : Except IoError Target :=
  let parts := (path.reverse.dropWhile (· == "")).reverse
  match parts.getLast? with
  | none => .ok (.itself [])
  | some last =>
    if last = "." ∨ last = ".." then (fs.walk parts).map .itself
    else (fs.walk parts.dropLast).map fun directory =>
      .named directory last (path.getLast? == some "")

/-- The place that a path names, and whether the path can only mean a directory. -/
def locate (fs : FileSystem) (path : Path) : Except IoError (Place × Bool) := do
  let target ← fs.resolve path
  return (← target.place, target.asDirectory)

/-- What a path names, if there is something. -/
def find? (fs : FileSystem) (path : String) : Option Entry :=
  match Path.ofText path >>= fs.locate with
  | .error _ => none
  | .ok (place, asDirectory) =>
    match fs.at? place, asDirectory with
    | some (.file _), true => none
    | entry, _ => entry

/-- Whether a path names something. -/
def exists? (fs : FileSystem) (path : String) : Bool := (fs.find? path).isSome

/-! ## Files -/

/-- The bytes of a file. -/
def read (fs : FileSystem) (path : String) : Except IoError ByteArray := do
  let (place, asDirectory) ← Path.ofText path >>= fs.locate
  match fs.at? place with
  | none => .error .notFound
  | some .directory => .error .isADirectory
  | some (.file content) => if asDirectory then .error .notADirectory else .ok content

/-- The text of a file. -/
def readText (fs : FileSystem) (path : String) : Except IoError String := do
  let content ← fs.read path
  match String.fromUTF8? content with
  | some text => .ok text
  | none => .error .invalidText

/-- Puts bytes into a file, whatever it held before; its directory has to be there. A path that can
only mean a directory is refused before its last name is looked at. -/
def write (fs : FileSystem) (path : String) (content : ByteArray) : Except IoError FileSystem := do
  let target ← Path.ofText path >>= fs.resolve
  if target.asDirectory then .error .isADirectory
  else
    let place ← target.place
    if Entry.isDirectory (fs.at? place) then .error .isADirectory
    else .ok (fs.insert place (some (.file content)))

/-- Takes a file away. -/
def remove (fs : FileSystem) (path : String) : Except IoError FileSystem := do
  let (place, asDirectory) ← Path.ofText path >>= fs.locate
  match fs.at? place with
  | none => .error .notFound
  | some .directory => .error .isADirectory
  | some (.file _) =>
    if asDirectory then .error .notADirectory else .ok (fs.insert place none)

/-! ## Directories -/

/-- Makes one directory, in one that is there. -/
def makeDirectory (fs : FileSystem) (path : Path) : Except IoError FileSystem := do
  let (place, _) ← fs.locate path
  if (fs.at? place).isSome then .error .alreadyExists
  else .ok (fs.insert place (some .directory))

/-- Whether a path names a directory. -/
def isDirectory (fs : FileSystem) (path : Path) : Bool :=
  match fs.locate path with
  | .ok (place, _) => Entry.isDirectory (fs.at? place)
  | .error _ => false

/-- Makes one directory, unless it is there. -/
def ensureDirectory (fs : FileSystem) (path : Path) : Except IoError FileSystem :=
  match fs.makeDirectory path with
  | .ok changed => .ok changed
  | .error cause => if fs.isDirectory path then .ok fs else .error cause

/-- Makes a directory, unless it is there, and tells what came of it. -/
def tryDirectory (fs : FileSystem) (path : Path) : Except IoError Unit × FileSystem :=
  match fs.ensureDirectory path with
  | .ok changed => (.ok (), changed)
  | .error cause => (.error cause, fs)

/-- Makes the directory of a path, and those on the way if it cannot be made without them; `names`
are the names of the path, the last one first. Directories that were made stay, even where the
next one fails. -/
def ensureAll (fs : FileSystem) (path : Path) :
    (names : List String) → Except IoError Unit × FileSystem
  | [] => fs.tryDirectory path
  | _ :: outer =>
    match fs.tryDirectory path with
    | (.error .notFound, _) =>
      match fs.ensureAll outer.reverse outer with
      | (.ok (), changed) => changed.tryDirectory path
      | failed => failed
    | done => done

/-- Makes the directory of a path and all that are missing on the way. For the empty path there is
nothing to make. -/
def makeDirectories (fs : FileSystem) (path : String) : Except IoError Unit × FileSystem :=
  if path = "" then (.ok (), fs)
  else match Path.ofText path with
    | .ok parts => fs.ensureAll parts parts.names.reverse
    | .error cause => (.error cause, fs)

end FileSystem

end PlayerText.Storage
