import PlayerText.Storage.FileSystem

/-!
# Actions on a file system

* `Action`: something that is done with a file system and can fail. What it did before it failed
  stays done.
* `Action.ofRead`, `Action.ofWrite`, `Action.makeDirectories`: the actions of a file system.
-/

namespace PlayerText.Storage

/-- Something that is done with a file system and can fail. -/
abbrev Action (α : Type) := ExceptT Error (StateM FileSystem) α

namespace Action

/-- Looks at the file system. -/
def ofRead {α : Type} (look : FileSystem → Except IoError α) : Action α := fun fs =>
  ((look fs).mapError .io, fs)

/-- Changes the file system, or fails and leaves it as it is. -/
def ofWrite (change : FileSystem → Except IoError FileSystem) : Action Unit := fun fs =>
  match change fs with
  | .ok changed => (.ok (), changed)
  | .error cause => (.error (.io cause), fs)

/-- Makes a directory and those on the way. -/
def makeDirectories (path : String) : Action Unit := fun fs =>
  let (result, changed) := fs.makeDirectories path
  (result.mapError .io, changed)

end Action

end PlayerText.Storage
