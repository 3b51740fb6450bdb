import PlayerText.Configuration.Store
import PlayerText.Proofs.Configuration.Json
import PlayerText.Proofs.Storage.FileSystem

/-!
# Keeping a configuration

A configuration that was put into a file is found there, as long as nobody changes the file.

* `ofFile_of_read`: a file with a configuration in writing gives that configuration.
* `ofFileOrDefault_of_ofFile`: a configuration that is found is not replaced by the default.
* `ofFile_of_toFile`: a configuration that was put into a file is the one that is found there.
-/

namespace PlayerText.Configuration

open Storage

section Files

variable {config : Configuration} {path : String} {fs : FileSystem}

/-- A file with a configuration in writing gives that configuration. -/
theorem ofFile_of_read (h : fs.read path = .ok config.write.toUTF8) :
    ofFile path fs = (.ok config, fs) := by
  have htext : Action.ofRead (·.readText path) fs = (.ok config.write, fs) :=
    Action.ofRead_of_ok (FileSystem.readText_of_read h)
  rw [ofFile, Action.bind_of_ok htext, read_write]
  rfl

/-- A configuration that is found is not replaced by the default. -/
theorem ofFileOrDefault_of_ofFile (h : ofFile path fs = (.ok config, fs)) :
    ofFileOrDefault path fs = (config, fs) := by
  have hrun : (ofFile path).run fs = (.ok config, fs) := h
  simp only [ofFileOrDefault, orDefault, bind, StateT.bind, hrun]
  rfl

end Files

/-- A configuration that was put into a file is the one that is found there, whatever its formats
hold and whatever else was done before, as long as the file was not changed. -/
theorem ofFile_of_toFile (config : Configuration) (path : String) {fs saved later : FileSystem}
    (hsaved : config.toFile path fs = (.ok (), saved))
    (hunchanged : later.read path = saved.read path) :
    ofFile path later = (.ok config, later) ∧ ofFileOrDefault path later = (config, later) := by
  have hwrite : fs.write path config.write.toUTF8 = .ok saved := Action.ok_of_ofWrite hsaved
  have hread : later.read path = .ok config.write.toUTF8 := by
    rw [hunchanged, FileSystem.read_of_write hwrite]
  have hfound : ofFile path later = (.ok config, later) := ofFile_of_read hread
  exact ⟨hfound, ofFileOrDefault_of_ofFile hfound⟩

/-- Formats that are empty, look like JSON or hold control characters, and another file that is
written in between. -/
theorem ofFile_of_toFile_notes :
    let config : Configuration := ⟨"", "\x7b\"a\": 1\x7d \\", "\x00\n\x1f\x7f", "😀"⟩
    let saved := FileSystem.empty.insert ["formats.json"] (some (.file config.write.toUTF8))
    let later := saved.insert ["notes"] (some (.file "other".toUTF8))
    config.toFile "/formats.json" FileSystem.empty = (.ok (), saved) ∧
      saved.write "/notes" "other".toUTF8 = .ok later ∧
      later.read "/formats.json" = saved.read "/formats.json" ∧
      ofFile "/formats.json" later = (.ok config, later) ∧
      ofFileOrDefault "/formats.json" later = (config, later) := by
  intro config saved later
  have hsaved : config.toFile "/formats.json" FileSystem.empty = (.ok (), saved) := rfl
  have hunchanged : later.read "/formats.json" = saved.read "/formats.json" := rfl
  exact ⟨hsaved, rfl, hunchanged, ofFile_of_toFile config _ hsaved hunchanged⟩

end PlayerText.Configuration
