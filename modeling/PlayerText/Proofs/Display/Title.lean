import PlayerText.Proofs.Display.Dependence

/-!
# Items without a title of their own

Every item has a title to show: one that has none in its metadata is titled by its display name. A
tree asks for it in two ways, whether it is there and what it says. Both answers are those of the
metadata with the display name entered as the title, and so nothing that a tree shows tells such an
item from one that is titled so.

* `View.get?_of_title`, `View.has_of_title`: an item with a title is seen as its metadata are.
* `View.titled`: an item with its display name entered as its title.
* `View.get?_titled`, `View.has_titled`, `View.agreesOn_titled`: it is seen as before.
* `evaluate_set_title`: it is shown as before.
-/

namespace PlayerText.Display

namespace View

variable {view : View}

/-- With a title of its own an item is seen as its metadata are. -/
theorem get?_of_title (h : view.metadata.has titleKey = true) (key : String) :
    view.get? key = view.metadata.get? key := by
  rw [Metadata.has_eq] at h
  unfold get?
  by_cases hkey : key = titleKey
  · rw [hkey, if_pos rfl, Option.or_of_isSome h]
  · rw [if_neg hkey, Option.or_none]

theorem has_of_title (h : view.metadata.has titleKey = true) (key : String) :
    view.has key = view.metadata.has key := by
  rw [has_eq, get?_of_title h, Metadata.has_eq]

/-- The item with its display name entered as its title. -/
def titled (view : View) : View :=
  { view with metadata := view.metadata.set titleKey view.displayName }

theorem metadata_titled_has : view.titled.metadata.has titleKey = true := by
  simp [titled]

/-- Without a title of its own an item is seen as if its display name were entered as its title. -/
theorem get?_titled (h : view.metadata.has titleKey = false) (key : String) :
    view.titled.get? key = view.get? key := by
  have hnone : view.metadata.get? titleKey = none := by simpa using h
  rw [get?_of_title metadata_titled_has, titled, Metadata.get?_set, get?]
  by_cases hkey : titleKey = key
  · subst hkey
    rw [if_pos rfl, if_pos rfl, hnone, Option.none_or]
  · rw [if_neg hkey, if_neg (Ne.symm hkey), Option.or_none]

theorem has_titled (h : view.metadata.has titleKey = false) (key : String) :
    view.titled.has key = view.has key := by
  rw [has_eq, has_eq, get?_titled h]

/-- No node tells an item without a title from one that is titled by its display name. -/
theorem agreesOn_titled (h : view.metadata.has titleKey = false) (node : Node) :
    view.AgreesOn view.titled node := by
  cases node with
  | empty => trivial
  | text => trivial
  | property key => exact (get?_titled h key).symm
  | displayName => rfl
  | conditional key => exact ⟨(has_titled h key).symm, .inr rfl⟩

end View

/-- An item with metadata, but without a title, is shown as if its display name were entered as its
title. Whether a key is there and what it says is seen as in the metadata with that title, and the
item's own metadata are left as they are. -/
theorem evaluate_set_title (format displayName : String) (metadata : Metadata) (medium : Medium)
    (h : metadata.isEmpty = false) (htitle : metadata.has titleKey = false) :
    let item : View := ⟨metadata, displayName, medium⟩
    let titled := metadata.set titleKey displayName
    (Tree.compile format).evaluate metadata displayName medium =
        (Tree.compile format).evaluate titled displayName medium ∧
      (∀ key, item.has key = titled.has key ∧ item.get? key = titled.get? key) ∧
      item.metadata = metadata := by
  intro item titled
  refine ⟨?_, fun key => ⟨?_, ?_⟩, rfl⟩
  · rw [Tree.evaluate_eq_render h, Tree.evaluate_eq_render (Metadata.isEmpty_set _ _ _)]
    exact Chain.render_congr _ fun node _ => item.agreesOn_titled htitle node
  · rw [← View.has_titled htitle, View.has_of_title View.metadata_titled_has]
    rfl
  · rw [← View.get?_titled htitle, View.get?_of_title View.metadata_titled_has]
    rfl

/-- A title that is asked for and shown, of an item with an artist only. -/
theorem evaluate_set_title_artist :
    let metadata := Metadata.empty.set "artist" "Band"
    let titled := metadata.set titleKey "song.mp3"
    let tree := Tree.compile "%title\x7b[#]\x7d\x7ba\x7d\x7bv\x7d by %artist\x7b#\x7d"
    metadata.isEmpty = false ∧ metadata.has titleKey = false ∧
      tree.evaluate metadata "song.mp3" .audio = tree.evaluate titled "song.mp3" .audio ∧
      View.get? ⟨metadata, "song.mp3", .audio⟩ titleKey = titled.get? titleKey := by
  have h : (Metadata.empty.set "artist" "Band").isEmpty = false := Metadata.isEmpty_set _ _ _
  have htitle : (Metadata.empty.set "artist" "Band").has titleKey = false := by simp [titleKey]
  obtain ⟨hshown, hseen, -⟩ := evaluate_set_title
    "%title\x7b[#]\x7d\x7ba\x7d\x7bv\x7d by %artist\x7b#\x7d" "song.mp3" _ .audio h htitle
  exact ⟨h, htitle, hshown, (hseen titleKey).2⟩

/-- An item of which nothing is known is not shown by the tree, and a title makes a difference. -/
example : (Tree.compile "x").evaluate .empty "song.mp3" .audio = "song.mp3" ∧
    (Tree.compile "x").evaluate (Metadata.empty.set titleKey "song.mp3") "song.mp3" .audio = "x" := by
  decide +kernel

end PlayerText.Display
