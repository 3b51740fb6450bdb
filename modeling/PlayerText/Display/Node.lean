/-!
# Nodes and chains of a display tree

A chain is a row of nodes, never an empty one: where there is nothing to show it is the single node
`Node.empty`. A conditional node holds three chains, one for each case.

* `Chain.ofNodes`, `Chain.toNodes`: a chain from a list of nodes and back.
* `toNodes_ofNodes`: nothing changes on the way, but that no node at all becomes `Node.empty`.
* `Chain.nodeCount`, `Chain.isBlank`: how many nodes there are, branches included, and whether the
  row holds empty nodes only.
-/

namespace PlayerText.Display

mutual

/-- One part of a display text. -/
inductive Node where
  /-- Shows nothing. -/
  | empty
  /-- Shows a text. -/
  | text (text : String)
  /-- Shows the metadata under a key, if the key is present. -/
  | property (key : String)
  /-- Shows the display name. -/
  | displayName
  /-- Shows `tag` if the key is present, else `audio` or `video` by the type of the medium. -/
  | conditional (key : String) (tag audio video : Chain)
  deriving DecidableEq

/-- Nodes in the order in which they are shown, at least one. -/
inductive Chain where
  /-- The last node. -/
  | last (node : Node)
  /-- A node and those after it. -/
  | cons (node : Node) (rest : Chain)
  deriving DecidableEq

end

namespace Chain

/-- The chain that shows nothing. -/
instance : Inhabited Chain := ⟨.last .empty⟩

/-- The chain of some nodes; no node at all gives the chain that shows nothing. -/
def ofNodes : List Node → Chain
  | [] => default
  | [node] => .last node
  | node :: next :: rest => .cons node (ofNodes (next :: rest))

/-- The nodes of a chain. -/
def toNodes : Chain → List Node
  | .last node => [node]
  | .cons node rest => node :: rest.toNodes

theorem toNodes_ofNodes : ∀ nodes : List Node,
    (ofNodes nodes).toNodes = if nodes = [] then [.empty] else nodes
  | [] => rfl
  | [_] => rfl
  | node :: next :: rest => by simp [ofNodes, toNodes, toNodes_ofNodes (next :: rest)]

@[simp] theorem ofNodes_toNodes : ∀ chain : Chain, ofNodes chain.toNodes = chain
  | .last _ => rfl
  | .cons node rest => by
    have ih := ofNodes_toNodes rest
    cases rest with
    | last => rfl
    | cons => rw [toNodes, toNodes, ofNodes, ← toNodes, ih]

/-- Whether every node is the empty one. -/
def isBlank (chain : Chain) : Bool := chain.toNodes.all (· == .empty)

end Chain

mutual

/-- A node counts as one, and the nodes of its branches count too. -/
def Node.nodeCount : Node → Nat
  | .conditional _ tag audio video => 1 + tag.nodeCount + audio.nodeCount + video.nodeCount
  | _ => 1

/-- The number of nodes of a chain, those in branches included. -/
def Chain.nodeCount : Chain → Nat
  | .last node => node.nodeCount
  | .cons node rest => node.nodeCount + rest.nodeCount

end

end PlayerText.Display
