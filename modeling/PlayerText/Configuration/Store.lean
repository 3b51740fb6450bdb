import PlayerText.Configuration.Json
import PlayerText.Storage.Action

/-!
# Where configurations are kept

A configuration is kept in a file, by default in `display-format/formats.json` below the
configuration directory of the user.

* `Environment.configDirectory?`: the configuration directory of the user.
* `filePath`: the path of a file in the library's directory, which is made if it is missing.
* `ofFile`, `toFile`, `ofFileOrDefault`: a configuration in a file of any name.
* `load`, `save`, `loadOrDefault`: the configuration of the user.
-/

namespace PlayerText

open Storage

/-- Where the user's directories are. -/
structure Environment where
  /-- The directory for configurations, if one is set. -/
  configHome : Option String
  /-- The home directory, if it is known. -/
  home : Option String

/-- The configuration directory of the user: the one that is set, if it starts at the root, else
`.config` in the home directory. -/
def Environment.configDirectory? (env : Environment) : Option String :=
  match env.configHome.filter isAbsolute with
  | some directory => some directory
  | none => env.home.map (join · ".config")

namespace Configuration

/-- The library's directory among the configurations. -/
def directoryName : String := "display-format"

/-- The file of the configuration. -/
def fileName : String := "formats.json"

/-- The path of a file in the library's directory. The directory is made if it is missing. -/
def filePath (env : Environment) (file : String) : Action String := do
  match env.configDirectory? with
  | none => throw .noConfigDirectory
  | some base =>
    let directory := join base directoryName
    Action.makeDirectories directory
    return join directory file

/-- The configuration in a file. -/
def ofFile (path : String) : Action Configuration := do
  let text ← Action.ofRead (·.readText path)
  match read text with
  | .ok config => return config
  | .error fault => throw (.json fault)

/-- Puts a configuration into a file. -/
def toFile (config : Configuration) (path : String) : Action Unit :=
  Action.ofWrite (·.write path config.write.toUTF8)

/-- The user's configuration. -/
def load (env : Environment) : Action Configuration := do
  ofFile (← filePath env fileName)

/-- Keeps a configuration as the user's. -/
def save (env : Environment) (config : Configuration) : Action Unit := do
  toFile config (← filePath env fileName)

/-- The result of an action, or the default configuration if it fails. -/
def orDefault (action : Action Configuration) : StateM FileSystem Configuration := do
  match ← action.run with
  | .ok config => return config
  | .error _ => return default

/-- The configuration in a file, or the default one. -/
def ofFileOrDefault (path : String) : StateM FileSystem Configuration := orDefault (ofFile path)

/-- The user's configuration, or the default one. -/
def loadOrDefault (env : Environment) : StateM FileSystem Configuration := orDefault (load env)

end Configuration

end PlayerText
