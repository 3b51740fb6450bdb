import PlayerText.Display.Piece
import PlayerText.Display.View

/-!
# Display trees

A format is compiled once, when the user changes it, and then shows one item after the other.

* `Tree.compile`: the tree of a format. Every format has one.
* `Tree.evaluate`: the text that the tree shows of an item.
* `Tree.evaluate_eq_render`: of an item with metadata it is the text of the root.
-/

namespace PlayerText.Display

/-- A compiled display format. -/
structure Tree where
  /-- The format it was compiled from. -/
  source : String
  /-- What it shows. -/
  root : Chain
  deriving DecidableEq

namespace Tree

/-- The tree of a format. -/
def compile (format : String) : Tree :=
  ⟨format, Chain.ofPieces (Piece.ofFormat format.toList)⟩

/-- How many nodes the tree has. -/
def nodeCount (tree : Tree) : Nat := tree.root.nodeCount

/-- The text for an item. Of an item without metadata only the display name is shown. -/
def evaluate (tree : Tree) (metadata : Metadata) (displayName : String) (medium : Medium) :
    String :=
  if metadata.isEmpty then displayName else tree.root.render ⟨metadata, displayName, medium⟩

/-- An item with metadata is shown by the root of the tree. -/
theorem evaluate_eq_render {metadata : Metadata} (h : metadata.isEmpty = false) (tree : Tree)
    (displayName : String) (medium : Medium) :
    tree.evaluate metadata displayName medium =
      tree.root.render ⟨metadata, displayName, medium⟩ := by
  rw [evaluate, h, if_neg Bool.false_ne_true]

@[simp] theorem source_compile (format : String) : (compile format).source = format := rfl

/-- Trees are told apart by their formats. -/
theorem compile_inj {a b : String} : compile a = compile b ↔ a = b :=
  ⟨fun h => by simpa using congrArg source h, congrArg compile⟩

end Tree

end PlayerText.Display
