import Mathlib.Control.Monad.Basic
import PlayerText.Proofs.Configuration.Store
import PlayerText.Proofs.Storage.Directories

/-!
# The store over whole runs

Requests to the store follow one another, in any order and on any tree of files, and some of them
fail. What each does to the tree is said once: it makes directories where nothing stood, and then at
most one file is written. All else follows, for a single request and for a run of them.

* `Request`, `Request.run`, `after`: what is asked of the store, and the tree after some requests.
* `Request.written?`, `written`: the files that are written.
* `filePath_cases`, `toFile_cases`, `save_cases`: what the steps of a request can do.
* `Request.run_cases`: what a request does to the tree.
* `keeps_after`, `at?_after`: a run keeps directories, and the files that it does not write.
* `exists_written_of_save`: a configuration that was kept is found as long as its file holds it.
* `store_over_run`: the store behaves like a store.
-/

namespace PlayerText.Configuration

open Storage

/-- Something that is asked of the store. -/
inductive Request where
  /-- The path of a file in the library's directory. -/
  | filePath (file : String)
  /-- The user's configuration. -/
  | load
  /-- The user's configuration, or the default one. -/
  | loadOrDefault
  /-- To keep a configuration as the user's. -/
  | save (config : Configuration)
  /-- The configuration in a file. -/
  | ofFile (path : String)
  /-- The configuration in a file, or the default one. -/
  | ofFileOrDefault (path : String)
  /-- To put a configuration into a file. -/
  | toFile (config : Configuration) (path : String)

/-- What the store answers. -/
inductive Answer where
  | path (result : Except Error String)
  | configuration (result : Except Error Configuration)
  | saved (result : Except Error Unit)
  deriving DecidableEq

namespace Request

/-- Whether a request is to keep a configuration. -/
def isSave : Request → Bool
  | save _ | toFile _ _ => true
  | _ => false

/-- The answer to a request, and the tree after it. -/
def run (env : Environment) (request : Request) (fs : FileSystem) : Answer × FileSystem :=
  match request with
  | filePath file => Prod.map .path id (Configuration.filePath env file fs)
  | load => Prod.map .configuration id (Configuration.load env fs)
  | loadOrDefault =>
    Prod.map (fun config => .configuration (.ok config)) id (Configuration.loadOrDefault env fs)
  | save config => Prod.map .saved id (Configuration.save env config fs)
  | ofFile path => Prod.map .configuration id (Configuration.ofFile path fs)
  | ofFileOrDefault path =>
    Prod.map (fun config => .configuration (.ok config)) id (Configuration.ofFileOrDefault path fs)
  | toFile config path => Prod.map .saved id (Configuration.toFile config path fs)

/-- The path of the file that a request is to write. -/
def target? (env : Environment) : Request → Option String
  | save _ => env.configDirectory?.map fun base => join (join base directoryName) fileName
  | toFile _ path => some path
  | _ => none

/-- The place of the file that a request writes, if it succeeds in writing one. -/
def written? (env : Environment) (request : Request) (fs : FileSystem) : Option Place :=
  match request.run env fs with
  | (.saved (.ok ()), changed) => request.target? env >>= changed.placeOf?
  | _ => none

end Request

/-- The tree after some requests. -/
def after (env : Environment) (fs : FileSystem) (requests : List Request) : FileSystem :=
  requests.foldl (fun fs request => (request.run env fs).2) fs

/-- The places of the files that some requests write, one after the other. -/
def written (env : Environment) (fs : FileSystem) : List Request → List Place
  | [] => []
  | request :: later =>
    (request.written? env fs).toList ++ written env (request.run env fs).2 later

section Steps

variable {env : Environment} {fs made : FileSystem}

/-! ## The steps of a request -/

/-- With a configuration directory, all that can fail is making the library's directory in it. -/
theorem filePath_of_some {base : String} (h : env.configDirectory? = some base) (file : String)
    (fs : FileSystem) : filePath env file fs =
      (Action.makeDirectories (join base directoryName) >>= fun _ =>
        pure (join (join base directoryName) file)) fs := by
  simp only [filePath, h]

/-- A path is given when its directory is there. -/
theorem filePath_of_makeDirectories {base : String} (hbase : env.configDirectory? = some base)
    (hmake : fs.makeDirectories (join base directoryName) = (.ok (), made)) (file : String) :
    filePath env file fs = (.ok (join (join base directoryName) file), made) := by
  have haction : Action.makeDirectories (join base directoryName) fs = (.ok (), made) := by
    rw [Action.makeDirectories, hmake]
    rfl
  rw [filePath_of_some hbase, Action.bind_of_ok haction]
  rfl

/-- What asking for a path can do: it fails, or its directory is there. -/
theorem filePath_cases (env : Environment) (file : String) (fs : FileSystem) :
    ∃ made, fs.GrowsTo made ∧
      ((∃ cause, filePath env file fs = (.error cause, made)) ∨
        ∃ base, env.configDirectory? = some base ∧
          fs.makeDirectories (join base directoryName) = (.ok (), made) ∧
          filePath env file fs = (.ok (join (join base directoryName) file), made)) := by
  cases hbase : env.configDirectory? with
  | none =>
    refine ⟨fs, .refl fs, .inl ⟨.noConfigDirectory, ?_⟩⟩
    simp only [filePath, hbase]
    rfl
  | some base =>
    have hgrows := FileSystem.makeDirectories_grows fs (join base directoryName)
    rcases hmake : fs.makeDirectories (join base directoryName) with ⟨result, made⟩
    rw [hmake] at hgrows
    refine ⟨made, hgrows, ?_⟩
    cases result with
    | error cause =>
      have haction : Action.makeDirectories (join base directoryName) fs =
          (.error (.io cause), made) := by
        rw [Action.makeDirectories, hmake]
        rfl
      refine .inl ⟨.io cause, ?_⟩
      rw [filePath_of_some hbase, Action.bind_of_error haction]
    | ok => exact .inr ⟨base, rfl, hmake, filePath_of_makeDirectories hbase hmake file⟩

/-- Looking for a configuration in a file changes nothing. -/
theorem ofFile_snd (path : String) (fs : FileSystem) : (ofFile path fs).2 = fs := by
  unfold ofFile
  cases htext : fs.readText path with
  | error cause =>
    have hlook : Action.ofRead (·.readText path) fs = (.error (.io cause), fs) := by
      rw [Action.ofRead, htext]
      rfl
    rw [Action.bind_of_error hlook]
  | ok text =>
    rw [Action.bind_of_ok (Action.ofRead_of_ok htext)]
    cases read text <;> rfl

/-- A configuration is put into a file as a whole, or nothing is changed. -/
theorem toFile_cases (config : Configuration) (path : String) (fs : FileSystem) :
    (∃ cause, toFile config path fs = (.error cause, fs)) ∨
      ∃ changed, fs.write path config.write.toUTF8 = .ok changed ∧
        toFile config path fs = (.ok (), changed) := by
  rcases Action.ofWrite_cases (·.write path config.write.toUTF8) fs with
    ⟨cause, -, hfile⟩ | ⟨changed, hwrite, hfile⟩
  · exact .inl ⟨.io cause, hfile⟩
  · exact .inr ⟨changed, hwrite, hfile⟩

/-- Looking for the user's configuration makes the library's directory, and nothing else. -/
theorem load_snd (env : Environment) (fs : FileSystem) :
    (load env fs).2 = (filePath env fileName fs).2 := by
  unfold load
  rcases hpath : filePath env fileName fs with ⟨result, made⟩
  cases result with
  | error cause => rw [Action.bind_of_error hpath]
  | ok path => rw [Action.bind_of_ok hpath, ofFile_snd]

/-- Keeping the user's configuration makes the library's directory, and then puts the configuration
into the file there. -/
theorem save_cases (env : Environment) (config : Configuration) (fs : FileSystem) :
    ∃ made, fs.GrowsTo made ∧
      ((∃ cause, save env config fs = (.error cause, made)) ∨
        ∃ base, env.configDirectory? = some base ∧
          fs.makeDirectories (join base directoryName) = (.ok (), made) ∧
          save env config fs = toFile config (join (join base directoryName) fileName) made) := by
  obtain ⟨made, hgrows, ⟨cause, hpath⟩ | ⟨base, hbase, hmake, hpath⟩⟩ :=
    filePath_cases env fileName fs
  · exact ⟨made, hgrows, .inl ⟨cause, Action.bind_of_error hpath _⟩⟩
  · exact ⟨made, hgrows, .inr ⟨base, hbase, hmake, Action.bind_of_ok hpath _⟩⟩

/-- The default stands in where there is no result, and nothing else is done. -/
theorem orDefault_eq (action : Action Configuration) (fs : FileSystem) :
    orDefault action fs = ((action fs).1.toOption.getD default, (action fs).2) := by
  simp only [orDefault, bind, StateT.bind, ExceptT.run]
  rcases action fs with ⟨result, made⟩
  cases result <;> rfl

end Steps

/-! ## Requests -/

section Requests

variable {env : Environment} {fs : FileSystem} {request : Request} {file : Place}

theorem Request.target?_save {config : Configuration} {base : String}
    (h : env.configDirectory? = some base) :
    (Request.save config).target? env = some (join (join base directoryName) fileName) := by
  rw [Request.target?, h]
  rfl

/-- A request that succeeds has written the file that its path names. -/
theorem Request.written?_of_write {made changed : FileSystem} {path : String}
    {content : ByteArray} (hrun : request.run env fs = (.saved (.ok ()), changed))
    (htarget : request.target? env = some path) (hwrite : made.write path content = .ok changed) :
    ∃ parts file, Path.ofText path = .ok parts ∧ changed.locate parts = .ok (file, false) ∧
      made.Puts file content changed ∧ request.written? env fs = some file := by
  obtain ⟨parts, file, hparts, hlocate, hputs⟩ := FileSystem.puts_of_write hwrite
  refine ⟨parts, file, hparts, hlocate, hputs, ?_⟩
  rw [Request.written?, hrun, htarget]
  exact FileSystem.placeOf?_of_locate hparts hlocate

theorem Request.written?_of_error {cause : Error}
    (h : (request.run env fs).1 = .saved (.error cause)) : request.written? env fs = none := by
  unfold Request.written?
  split
  · next hrun =>
    rw [hrun] at h
    cases h
  · rfl

theorem Request.written?_of_not_isSave (h : request.isSave = false) :
    request.written? env fs = none := by
  unfold Request.written?
  cases request with
  | save => cases h
  | toFile => cases h
  | _ => rfl

/-- A request that ends with a configuration put into a file writes the file that its path names, or
nothing at all. -/
theorem Request.written?_cases {made : FileSystem} {config : Configuration} {path : String}
    (hrun : request.run env fs = Prod.map .saved id (Configuration.toFile config path made))
    (htarget : request.target? env = some path) :
    request.written? env fs = none ∧ (request.run env fs).2 = made ∨
      ∃ file content, request.written? env fs = some file ∧
        made.Puts file content (request.run env fs).2 := by
  rcases toFile_cases config path made with ⟨cause, hfile⟩ | ⟨changed, hwrite, hfile⟩
  · rw [hfile] at hrun
    exact .inl ⟨Request.written?_of_error (congrArg Prod.fst hrun), congrArg Prod.snd hrun⟩
  · rw [hfile] at hrun
    obtain ⟨-, file, -, -, hputs, hwritten⟩ := Request.written?_of_write hrun htarget hwrite
    rw [hrun]
    exact .inr ⟨file, _, hwritten, hputs⟩

/-- A request that is not to keep a configuration only makes directories. -/
theorem Request.grows_of_not_isSave (h : request.isSave = false) :
    fs.GrowsTo (request.run env fs).2 := by
  have hpath : ∀ name, fs.GrowsTo (Configuration.filePath env name fs).2 := by
    intro name
    obtain ⟨made, hgrows, ⟨cause, hpath⟩ | ⟨base, -, -, hpath⟩⟩ := filePath_cases env name fs
    · rwa [hpath]
    · rwa [hpath]
  have hload : fs.GrowsTo (Configuration.load env fs).2 := by
    rw [load_snd]
    exact hpath fileName
  have hfile : ∀ path, fs.GrowsTo (Configuration.ofFile path fs).2 := by
    intro path
    rw [ofFile_snd]
    exact .refl fs
  cases request with
  | filePath name => exact hpath name
  | load => exact hload
  | loadOrDefault =>
    change fs.GrowsTo (orDefault (Configuration.load env) fs).2
    rwa [orDefault_eq]
  | ofFile path => exact hfile path
  | ofFileOrDefault path =>
    change fs.GrowsTo (orDefault (Configuration.ofFile path) fs).2
    rw [orDefault_eq]
    exact hfile path
  | save => cases h
  | toFile => cases h

/-- What a request does to the tree: directories are made where nothing stood, and then at most one
file is written. -/
theorem Request.run_cases (env : Environment) (request : Request) (fs : FileSystem) :
    ∃ made, fs.GrowsTo made ∧
      (request.written? env fs = none ∧ (request.run env fs).2 = made ∨
        ∃ file content, request.written? env fs = some file ∧
          made.Puts file content (request.run env fs).2) := by
  -- Only two requests end with a file put somewhere; all others are alike.
  cases request with
  | save config =>
    obtain ⟨made, hgrows, ⟨cause, hsave⟩ | ⟨base, hbase, -, hsave⟩⟩ := save_cases env config fs
    · have hrun : (Request.save config).run env fs = (.saved (.error cause), made) := by
        rw [Request.run, hsave]
        rfl
      exact ⟨made, hgrows,
        .inl ⟨Request.written?_of_error (congrArg Prod.fst hrun), congrArg Prod.snd hrun⟩⟩
    · have hrun : (Request.save config).run env fs = Prod.map .saved id
          (Configuration.toFile config (join (join base directoryName) fileName) made) := by
        rw [Request.run, hsave]
      exact ⟨made, hgrows, Request.written?_cases hrun (Request.target?_save hbase)⟩
  | toFile config path => exact ⟨fs, .refl fs, Request.written?_cases rfl rfl⟩
  | _ =>
    exact ⟨_, Request.grows_of_not_isSave rfl, .inl ⟨Request.written?_of_not_isSave rfl, rfl⟩⟩

/-- A request takes no directory away. -/
theorem Request.keeps_run (env : Environment) (request : Request) (fs : FileSystem) :
    fs.Keeps (request.run env fs).2 := by
  obtain ⟨made, hgrows, ⟨-, hrun⟩ | ⟨file, content, -, hputs⟩⟩ := request.run_cases env fs
  · rw [hrun]
    exact hgrows.keeps
  · exact hgrows.keeps.trans hputs.keeps

/-- A file that a request does not write stays as it is. -/
theorem Request.at?_run {content : ByteArray} (hfile : fs.at? file = some (.file content))
    (h : request.written? env fs ≠ some file) :
    (request.run env fs).2.at? file = some (.file content) := by
  obtain ⟨made, hgrows, ⟨-, hrun⟩ | ⟨other, _, hwritten, hputs⟩⟩ := request.run_cases env fs
  · rw [hrun]
    exact hgrows.at?_eq hfile
  · have hne : file ≠ other := by
      rintro rfl
      exact h hwritten
    rw [hputs.at?_of_ne hne]
    exact hgrows.at?_eq hfile

/-! ## Runs -/

/-- Directories are there to stay. -/
theorem keeps_after (env : Environment) (fs : FileSystem) (requests : List Request) :
    fs.Keeps (after env fs requests) := by
  induction requests generalizing fs with
  | nil => exact .refl fs
  | cons request later ih => exact (request.keeps_run env fs).trans (ih _)

/-- Files stay as they are until they are written. -/
theorem at?_after {content : ByteArray} {requests : List Request}
    (hfile : fs.at? file = some (.file content)) (h : file ∉ written env fs requests) :
    (after env fs requests).at? file = some (.file content) := by
  induction requests generalizing fs with
  | nil => exact hfile
  | cons request later ih =>
    obtain ⟨hfirst, hlater⟩ := not_or.mp (mt List.mem_append.mpr h)
    refine ih (Request.at?_run hfile fun hwritten => hfirst ?_) hlater
    rw [hwritten]
    exact List.mem_singleton_self file

/-- A configuration that was kept is in a file, and it is found as long as that file holds it and no
directory is taken away. -/
theorem exists_written_of_save {config : Configuration} (hok : (save env config fs).1 = .ok ()) :
    ∃ file, (Request.save config).written? env fs = some file ∧
      (save env config fs).2.at? file = some (.file config.write.toUTF8) ∧
      ∀ now, (save env config fs).2.Keeps now →
        now.at? file = some (.file config.write.toUTF8) → load env now = (.ok config, now) := by
  obtain ⟨made, -, ⟨cause, hsave⟩ | ⟨base, hbase, hmake, hsave⟩⟩ := save_cases env config fs
  · rw [hsave] at hok
    cases hok
  rcases toFile_cases config (join (join base directoryName) fileName) made with
    ⟨cause, hfile⟩ | ⟨saved, hwrite, hfile⟩
  · rw [hsave, hfile] at hok
    cases hok
  rw [hfile] at hsave
  have hrun : (Request.save config).run env fs = (.saved (.ok ()), saved) := by
    rw [Request.run, hsave]
    rfl
  obtain ⟨parts, file, hparts, hlocate, hputs, hwritten⟩ :=
    Request.written?_of_write hrun (Request.target?_save hbase) hwrite
  rw [hsave]
  refine ⟨file, hwritten, hputs.at?_place, fun now hkeeps hheld => ?_⟩
  -- The directory is found and not made again, and the path leads to the same file.
  have hpath := filePath_of_makeDirectories hbase
    (FileSystem.makeDirectories_again hmake (hputs.keeps.trans hkeeps)) fileName
  have hread : now.read (join (join base directoryName) fileName) = .ok config.write.toUTF8 :=
    FileSystem.read_eq_of_locate hparts (hkeeps.locate hlocate) hheld
  rw [load, Action.bind_of_ok hpath]
  exact ofFile_of_read hread

end Requests

/-- The store behaves like a store at every moment of every run. A configuration that was kept is
the one that is found until its file is written again; asking for a path or a configuration changes
no file, and neither does keeping one if it fails: at most, directories are made where nothing
stood. The default stands in for a configuration exactly where there is none. -/
theorem store_over_run (env : Environment) (start : FileSystem) (before : List Request) :
    let fs := after env start before
    (∀ config, (save env config fs).1 = .ok () →
      ∃ file, (Request.save config).written? env fs = some file ∧
        ∀ later, file ∉ written env (save env config fs).2 later →
          let now := after env (save env config fs).2 later
          load env now = (.ok config, now) ∧ loadOrDefault env now = (config, now)) ∧
    (∀ request : Request, request.isSave = false → fs.GrowsTo (request.run env fs).2) ∧
    (∀ (request : Request) (cause : Error), (request.run env fs).1 = .saved (.error cause) →
      fs.GrowsTo (request.run env fs).2) ∧
    loadOrDefault env fs = ((load env fs).1.toOption.getD default, (load env fs).2) ∧
    ∀ path, ofFileOrDefault path fs = ((ofFile path fs).1.toOption.getD default, fs) := by
  intro fs
  refine ⟨?_, fun request h => Request.grows_of_not_isSave h, ?_, orDefault_eq _ fs, ?_⟩
  · intro config hok
    obtain ⟨file, hwritten, hfile, hfound⟩ := exists_written_of_save hok
    refine ⟨file, hwritten, fun later hlater => ?_⟩
    have hload := hfound _ (keeps_after env _ later) (at?_after hfile hlater)
    refine ⟨hload, ?_⟩
    rw [loadOrDefault, orDefault_eq, hload]
    rfl
  · intro request cause herror
    obtain ⟨made, hgrows, ⟨-, hrun⟩ | ⟨file, _, hwritten, -⟩⟩ := request.run_cases env fs
    · rwa [hrun]
    · rw [Request.written?_of_error herror] at hwritten
      cases hwritten
  · intro path
    rw [ofFileOrDefault, orDefault_eq, ofFile_snd]

/-- A configuration is kept, another one goes to another file, a third is put into a directory that
is missing, and paths are asked for. -/
theorem store_over_run_notes :
    let env : Environment := ⟨none, some "/home"⟩
    let config : Configuration := ⟨"", "\"", "\x00", "😀"⟩
    let fs := after env .empty [.filePath "notes"]
    let saved := (save env config fs).2
    let lost := Request.toFile default "/missing/formats.json"
    let later := [.toFile default "/home/formats.json", lost, .filePath "formats.json"]
    let now := after env saved later
    (save env config fs).1 = .ok () ∧
      ["formats.json", "display-format", ".config", "home"] ∉ written env saved later ∧
      load env now = (.ok config, now) ∧ loadOrDefault env now = (config, now) ∧
      Request.load.isSave = false ∧ fs.GrowsTo (Request.load.run env fs).2 ∧
      (lost.run env fs).1 = .saved (.error (.io .notFound)) ∧
      fs.GrowsTo (lost.run env fs).2 := by
  intro env config fs saved lost later now
  obtain ⟨hkept, hreading, herror, -, -⟩ := store_over_run env .empty [.filePath "notes"]
  have hok : (save env config fs).1 = .ok () := by decide +kernel
  obtain ⟨file, hwritten, hfound⟩ := hkept config hok
  have hplace : (Request.save config).written? env fs =
      some ["formats.json", "display-format", ".config", "home"] := by decide +kernel
  have hlater : ["formats.json", "display-format", ".config", "home"] ∉
      written env saved later := by decide +kernel
  rw [hplace] at hwritten
  cases hwritten
  have hlost : (lost.run env fs).1 = .saved (.error (.io .notFound)) := by decide +kernel
  obtain ⟨hload, hdefault⟩ := hfound later hlater
  exact ⟨hok, hlater, hload, hdefault, rfl, hreading .load rfl, hlost, herror lost _ hlost⟩

end PlayerText.Configuration
