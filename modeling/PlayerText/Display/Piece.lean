import PlayerText.Display.Node
import PlayerText.Text.Group

/-!
# Pieces of a display format

The language of display formats, read from left to right into pieces.

At the top level a character other than `%` is shown as it is. Of `%%` the first is shown and the
second still begins a directive. A directive is a key, which runs to the next `{` and is not empty,
and three groups: what to show if the key is present, else for audio, else for video. A `%` that
begins no directive shows nothing.

Inside a group `#` shows the metadata under the directive's key and `$` the display name; `##` and
`$$` show one `#` and one `$`.

* `Piece.ofFormat`, `Piece.ofGroup`: the pieces of a format and of a group.
* `Chain.ofPieces`: the chain of some pieces, each run of characters joined into one text.
-/

namespace PlayerText.Display

open Text

/-- A piece of a format. -/
inductive Piece where
  /-- A character to show. -/
  | char (c : Char)
  /-- Nothing to show, and the end of a text. -/
  | stop
  /-- A node other than a text, and the end of a text. -/
  | node (node : Node)
  deriving DecidableEq

/-- The text node of the characters read last, newest first; none if there are none. -/
def pendingText : List Char → List Node
  | [] => []
  | pending => [.text (String.ofList pending.reverse)]

/-- The nodes of some pieces, after the characters in `pending`, newest first. -/
def nodesOfPieces (pending : List Char) : List Piece → List Node
  | [] => pendingText pending
  | .char c :: rest => nodesOfPieces (c :: pending) rest
  | .stop :: rest => pendingText pending ++ nodesOfPieces [] rest
  | .node node :: rest => pendingText pending ++ node :: nodesOfPieces [] rest

/-- The chain of some pieces. -/
def Chain.ofPieces (pieces : List Piece) : Chain := ofNodes (nodesOfPieces [] pieces)

namespace Piece

/-- The pieces of a group in a directive for `key`. -/
def ofGroup (key : String) : List Char → List Piece
  | '#' :: '#' :: r => char '#' :: ofGroup key r
  | '$' :: '$' :: r => char '$' :: ofGroup key r
  | '#' :: r => node (.property key) :: ofGroup key r
  | '$' :: r => node .displayName :: ofGroup key r
  | c :: r => char c :: ofGroup key r
  | [] => []

/-- The conditional node of the directive that follows a `%`, and what follows it; nothing if its
key is empty or no group begins. -/
def directive? (cs : List Char) : Option (Node × List Char) :=
  match upTo? '{' cs with
  | none => none
  | some ([], _) => none
  | some (key, rest) =>
    let (branches, rest) := groups 3 rest
    let name := String.ofList key
    let branch cs := Chain.ofPieces (ofGroup name cs)
    some (.conditional name (branch (branches 0)) (branch (branches 1)) (branch (branches 2)), rest)

theorem length_directive?_le {cs rest : List Char} {node : Node}
    (h : directive? cs = some (node, rest)) : rest.length ≤ cs.length := by
  unfold directive? at h
  split at h
  · contradiction
  · contradiction
  · next key r _ hr =>
    obtain ⟨-, rfl⟩ := Prod.mk.inj (Option.some.inj h)
    exact Nat.le_trans (length_groups_le 3 r) (length_upTo?_le hr)

/-- The pieces of a format. -/
def ofFormat : List Char → List Piece
  | [] => []
  | '%' :: '%' :: r => char '%' :: ofFormat ('%' :: r)
  | '%' :: r =>
    match h : directive? r with
    | none => stop :: ofFormat r
    | some (conditional, rest) =>
      have := length_directive?_le h
      node conditional :: ofFormat rest
  | c :: r => char c :: ofFormat r
termination_by cs => cs.length

end Piece

end PlayerText.Display
