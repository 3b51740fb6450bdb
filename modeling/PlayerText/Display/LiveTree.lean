import PlayerText.Display.Tree

/-!
# The display tree in force

Formats come and go while texts are shown. A live tree holds the tree of the format in force; a tree
that was taken from it stays as it is when the format changes.

* `LiveTree.ofFormat`, `LiveTree.replace`: the first format, and another one.
* `LiveTree.evaluate`: the text that the tree in force shows of an item.
-/

namespace PlayerText.Display

/-- The place that holds the display tree in force. -/
structure LiveTree where
  /-- The tree in force. -/
  tree : Tree
  deriving DecidableEq

namespace LiveTree

/-- A place with the tree of a format. -/
def ofFormat (format : String) : LiveTree := ⟨Tree.compile format⟩

/-- A place with the tree of the empty format. -/
instance : Inhabited LiveTree := ⟨ofFormat ""⟩

/-- Puts another format in force. -/
def replace (live : LiveTree) (format : String) : LiveTree :=
  { live with tree := Tree.compile format }

/-- The text that the tree in force shows of an item. -/
def evaluate (live : LiveTree) (metadata : Metadata) (displayName : String) (medium : Medium) :
    String :=
  live.tree.evaluate metadata displayName medium

end LiveTree

end PlayerText.Display
