import PlayerText.Display.Node
import PlayerText.Media
import PlayerText.Metadata

/-!
# What a display tree shows of an item

* `View.get?`, `View.has`: the metadata of an item as a display tree sees it. The key `title` is
  always there: without a title of its own the item is titled by its display name.
* `Node.render`, `Chain.render`: the text of a node and of a chain.
* `Chain.render_eq`, `Chain.render_ofNodes`: the text of a chain is the texts of its nodes, joined.
-/

namespace PlayerText.Display

/-- The key that every item has. -/
def titleKey : String := "title"

/-- An item as a display tree sees it. -/
structure View where
  /-- What is known about the item. -/
  metadata : Metadata
  /-- The name to show for the item where nothing better is known. -/
  displayName : String
  /-- What kind of medium it is. -/
  medium : Medium

namespace View

/-- The text under a key; a missing title is the display name. -/
def get? (view : View) (key : String) : Option String :=
  (view.metadata.get? key).or (if key = titleKey then some view.displayName else none)

/-- Whether a key is there to be shown. -/
def has (view : View) (key : String) : Bool :=
  key == titleKey || view.metadata.has key

/-- The branch of a conditional node that is shown. -/
@[macro_inline] def choose {α : Type} (view : View) (key : String) (tag audio video : α) : α :=
  if view.has key then tag
  else match view.medium with
    | .audio => audio
    | .video => video

theorem has_eq (view : View) (key : String) : view.has key = (view.get? key).isSome := by
  by_cases h : key = titleKey <;> simp [has, get?, h]

end View

mutual

/-- The text of a node. -/
def Node.render (view : View) : Node → String
  | .empty => ""
  | .text text => text
  | .property key => (view.get? key).getD ""
  | .displayName => view.displayName
  | .conditional key tag audio video =>
    view.choose key (tag.render view) (audio.render view) (video.render view)

/-- The texts of the nodes, one after the other. -/
def Chain.render (view : View) : Chain → String
  | .last node => node.render view
  | .cons node rest => node.render view ++ rest.render view

end

theorem Chain.render_eq (view : View) : ∀ chain : Chain,
    chain.render view = String.join (chain.toNodes.map (Node.render view))
  | .last node => by simp [Chain.render, Chain.toNodes, String.join]
  | .cons node rest => by
    rw [Chain.render, Chain.toNodes, Chain.render_eq view rest, List.map_cons, String.join_cons]

theorem Chain.render_ofNodes (view : View) (nodes : List Node) :
    (ofNodes nodes).render view = String.join (nodes.map (Node.render view)) := by
  rw [Chain.render_eq, toNodes_ofNodes]
  split
  · next hnil => rw [hnil]; rfl
  · rfl

end PlayerText.Display
