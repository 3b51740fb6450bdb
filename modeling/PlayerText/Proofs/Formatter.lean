import PlayerText.Formatter

/-!
# A formatter that is reconfigured

Reconfiguring compiles only what has changed, and so a tree can be older than the configuration that
is in force. It is right all the same, whatever formats came and went in between: a formatter that
was reconfigured any number of times is the one built from the last configuration.

* `UpToDate`: every tree that is held is the tree of its format in the configuration in force.
* `upToDate_ofConfiguration`, `UpToDate.reconfigure`, `UpToDate.foldl_reconfigure`: a new formatter
  is up to date, one reconfiguration keeps it so, and any number of them.
* `configuration_foldl_reconfigure`: the last configuration is in force.
* `foldl_reconfigure_indistinguishable`: nothing tells such a formatter from a new one.
-/

namespace PlayerText.Formatter

open Display

/-- Every tree that is held is the tree of its format in the configuration in force. -/
structure UpToDate (f : Formatter) : Prop where
  windowTitle : f.windowTitleTree.tree = Tree.compile f.configuration.windowTitle
  nowPlaying : f.nowPlayingTree.tree = Tree.compile f.configuration.nowPlaying

/-- Nothing that two formatters hold or show tells one from the other. -/
structure Indistinguishable (f g : Formatter) : Prop where
  configuration : f.configuration = g.configuration
  windowTitleTree : f.windowTitleTree.tree = g.windowTitleTree.tree
  nowPlayingTree : f.nowPlayingTree.tree = g.nowPlayingTree.tree
  windowTitle : ∀ metadata displayName medium,
    f.windowTitle metadata displayName medium = g.windowTitle metadata displayName medium
  nowPlaying : ∀ metadata displayName medium,
    f.nowPlaying metadata displayName medium = g.nowPlaying metadata displayName medium
  osdTime : ∀ ctx now, f.osdTime ctx now = g.osdTime ctx now
  screenshotName : ∀ ctx now, f.screenshotName ctx now = g.screenshotName ctx now

/-- The four texts depend on the trees and the configuration only. -/
theorem Indistinguishable.of_holds {f g : Formatter} (hc : f.configuration = g.configuration)
    (hw : f.windowTitleTree.tree = g.windowTitleTree.tree)
    (hn : f.nowPlayingTree.tree = g.nowPlayingTree.tree) : f.Indistinguishable g where
  configuration := hc
  windowTitleTree := hw
  nowPlayingTree := hn
  windowTitle _ _ _ := by
    unfold Formatter.windowTitle LiveTree.evaluate
    rw [hw]
  nowPlaying _ _ _ := by
    unfold Formatter.nowPlaying LiveTree.evaluate
    rw [hn]
  osdTime _ _ := by rw [Formatter.osdTime, Formatter.osdTime, hc]
  screenshotName _ _ := by rw [Formatter.screenshotName, Formatter.screenshotName, hc]

theorem upToDate_ofConfiguration (c : Configuration) : (ofConfiguration c).UpToDate := ⟨rfl, rfl⟩

/-- A tree that is replaced only for another format is the tree of the format. -/
theorem tree_ite_replace {live : LiveTree} {old new : String} (h : live.tree = Tree.compile old) :
    (if new = old then live else live.replace new).tree = Tree.compile new := by
  by_cases hsame : new = old
  · rw [if_pos hsame, h, hsame]
  · rw [if_neg hsame]
    rfl

theorem UpToDate.reconfigure {f : Formatter} (h : f.UpToDate) (c : Configuration) :
    (f.reconfigure c).UpToDate where
  windowTitle := tree_ite_replace h.windowTitle
  nowPlaying := tree_ite_replace h.nowPlaying

theorem UpToDate.foldl_reconfigure {f : Formatter} (h : f.UpToDate) (later : List Configuration) :
    (later.foldl Formatter.reconfigure f).UpToDate := by
  induction later generalizing f with
  | nil => exact h
  | cons c later ih => exact ih (h.reconfigure c)

theorem configuration_foldl_reconfigure (f : Formatter) (later : List Configuration) :
    (later.foldl reconfigure f).configuration = later.getLastD f.configuration := by
  induction later generalizing f with
  | nil => rfl
  | cons c later ih => rw [List.foldl_cons, ih, List.getLastD_cons]; rfl

/-- The formatter of a first configuration, or of the default one if none is given. -/
def initial (first : Option Configuration) : Formatter := (first.map ofConfiguration).getD default

theorem initial_eq (first : Option Configuration) :
    initial first = ofConfiguration (first.getD default) := by
  cases first <;> rfl

/-- However often a formatter was reconfigured, it holds the last configuration and the trees of its
formats, and nothing tells it from a formatter that is built from that configuration. -/
theorem foldl_reconfigure_indistinguishable (first : Option Configuration)
    (later : List Configuration) :
    let f := later.foldl reconfigure (initial first)
    let last := later.getLastD (first.getD default)
    f.configuration = last ∧
      f.windowTitleTree.tree = Tree.compile last.windowTitle ∧
      f.nowPlayingTree.tree = Tree.compile last.nowPlaying ∧
      f.Indistinguishable (ofConfiguration last) := by
  intro f last
  have hlast : f.configuration = last := by
    rw [configuration_foldl_reconfigure, initial_eq]
    rfl
  obtain ⟨hw, hn⟩ : f.UpToDate := by
    have hfirst := upToDate_ofConfiguration (first.getD default)
    rw [← initial_eq] at hfirst
    exact hfirst.foldl_reconfigure later
  rw [hlast] at hw hn
  exact ⟨hlast, hw, hn, .of_holds hlast hw hn⟩

end PlayerText.Formatter
