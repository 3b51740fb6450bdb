import Mathlib.Algebra.Order.Ring.Nat
import PlayerText.Proofs.Display.Shape

/-!
# The size of a compiled tree

A tree has at most one node more than its format has characters. A character that is shown or is a
marker pays for one node. A directive has three branches, which count even where there is no group
for them: its `%`, its key and the two braces of its first group pay for the four nodes. A first
group that is never closed leaves one node over, but then the format is at its end.

* `Chain.nodeCount_eq`: the nodes of a chain are counted one by one.
* `Piece.size`, `sum_nodesOfPieces_le`: a piece gives no more nodes than its size.
* `nodeCount_ofGroup_le`, `nodeCount_ofGroups_le`: the nodes of a group and of a directive.
* `sum_size_ofFormat_le`: the size of what is read from a format.
* `isBlank_root_iff`: which trees show nothing.
* `nodeCount_compile_le`: the size of a tree, and which trees show nothing.
-/

namespace PlayerText.Display

open Text

theorem Chain.nodeCount_eq (chain : Chain) :
    chain.nodeCount = (chain.toNodes.map Node.nodeCount).sum := by
  fun_induction Chain.toNodes chain with
  | case1 node => rw [Chain.nodeCount, List.map_singleton, List.sum_singleton]
  | case2 node rest ih => rw [Chain.nodeCount, ih, List.map_cons, List.sum_cons]

/-- A chain counts its nodes, and as one if there are none. -/
theorem Chain.nodeCount_ofNodes_le {nodes : List Node} {n : Nat}
    (h : (nodes.map Node.nodeCount).sum ≤ n) (hn : 1 ≤ n) : (ofNodes nodes).nodeCount ≤ n := by
  rw [Chain.nodeCount_eq, toNodes_ofNodes]
  split
  · exact hn
  · exact h

/-- How many nodes a piece can give. A character gives a text at most. -/
def Piece.size : Piece → Nat
  | .char _ => 1
  | .stop => 0
  | .node inner => inner.nodeCount

section Pieces

variable {pending : List Char} {pieces : List Piece}

theorem sum_pendingText_le (pending : List Char) :
    ((pendingText pending).map Node.nodeCount).sum ≤ pending.length := by
  cases pending with
  | nil => exact Nat.le_refl 0
  | cons => exact Nat.succ_le_succ (Nat.zero_le _)

/-- Joined into texts, pieces give no more nodes than one by one. -/
theorem sum_nodesOfPieces_le (pending : List Char) (pieces : List Piece) :
    ((nodesOfPieces pending pieces).map Node.nodeCount).sum ≤
      pending.length + (pieces.map Piece.size).sum := by
  fun_induction nodesOfPieces pending pieces with
  | case1 pending => exact sum_pendingText_le pending
  | case2 pending c rest ih =>
    simp only [List.map_cons, List.sum_cons, List.length_cons, Piece.size] at ih ⊢
    omega
  | case3 pending rest ih =>
    have htext := sum_pendingText_le pending
    simp only [List.map_append, List.sum_append, List.map_cons, List.sum_cons, List.length_nil,
      Piece.size] at ih ⊢
    omega
  | case4 pending node rest ih =>
    have htext := sum_pendingText_le pending
    simp only [List.map_append, List.sum_append, List.map_cons, List.sum_cons, List.length_nil,
      Piece.size] at ih ⊢
    omega

/-- Pieces give no node only if none of them shows anything. -/
theorem nodesOfPieces_eq_nil_iff :
    nodesOfPieces pending pieces = [] ↔ pending = [] ∧ ∀ p ∈ pieces, p = .stop := by
  have htext : ∀ pending, pendingText pending = [] ↔ pending = [] := fun pending => by
    cases pending <;> simp [pendingText]
  fun_induction nodesOfPieces pending pieces with
  | case1 pending => simp [htext]
  | case2 pending c rest ih => simp [ih]
  | case3 pending rest ih => simp [ih, htext]
  | case4 pending node rest ih => simp

end Pieces

section Groups

theorem sum_size_ofGroup_le (key : String) (cs : List Char) :
    ((Piece.ofGroup key cs).map Piece.size).sum ≤ cs.length := by
  induction cs using Piece.group_induction with
  | nil => exact Nat.le_refl 0
  | char c r hp hd ih =>
    rw [Piece.ofGroup_char hp hd, List.map_cons, List.sum_cons, List.length_cons, Piece.size]
    omega
  | doubled c r hc ih =>
    rw [Piece.ofGroup_doubled hc, List.map_cons, List.sum_cons, List.length_cons, List.length_cons,
      Piece.size]
    omega
  | property r hr ih =>
    simp only [Piece.ofGroup_property hr, List.map_cons, List.sum_cons, List.length_cons,
      Piece.size, Node.nodeCount]
    omega
  | displayName r hr ih =>
    simp only [Piece.ofGroup_displayName hr, List.map_cons, List.sum_cons, List.length_cons,
      Piece.size, Node.nodeCount]
    omega

/-- A group has at most a node for each character, and one if it is empty. -/
theorem nodeCount_ofGroup_le (key : String) (cs : List Char) :
    (Chain.ofGroup key cs).nodeCount ≤ cs.length + 1 := by
  refine Chain.nodeCount_ofNodes_le ?_ (Nat.succ_le_succ (Nat.zero_le _))
  have hnodes := sum_nodesOfPieces_le [] (Piece.ofGroup key cs)
  have hpieces := sum_size_ofGroup_le key cs
  rw [List.length_nil] at hnodes
  omega

theorem nodeCount_ofGroups_le (key tag audio video : List Char) :
    (Node.ofGroups key tag audio video).nodeCount ≤
      tag.length + audio.length + video.length + 4 := by
  have htag := nodeCount_ofGroup_le (String.ofList key) tag
  have haudio := nodeCount_ofGroup_le (String.ofList key) audio
  have hvideo := nodeCount_ofGroup_le (String.ofList key) video
  rw [Node.ofGroups, Node.nodeCount]
  omega

/-- What is read from a format gives at most one node more than there are characters. -/
theorem sum_size_ofFormat_le (cs : List Char) :
    ((Piece.ofFormat cs).map Piece.size).sum ≤ cs.length + 1 := by
  induction cs using Piece.format_induction with
  | nil => simp
  | char c r hc ih =>
    rw [Piece.ofFormat_char hc, List.map_cons, List.sum_cons, List.length_cons, Piece.size]
    omega
  | doubled r ih =>
    rw [Piece.ofFormat_doubled, List.map_cons, List.sum_cons, List.length_cons, Piece.size]
    omega
  | dropped r hhead hr ih =>
    rw [Piece.ofFormat_dropped hhead hr, List.map_cons, List.sum_cons, List.length_cons, Piece.size]
    omega
  | directive key r tag audio video rest hne hkey hhead hgroups ih =>
    have hnode := nodeCount_ofGroups_le key tag audio video
    have hpos := List.length_pos_iff.mpr hne
    rw [Piece.ofFormat_directive hne hkey hhead hgroups, List.map_cons, List.sum_cons,
      List.length_cons, List.length_append, List.length_cons, Piece.size]
    rcases hgroups.length_le with hclosed | ⟨hopen, rfl⟩
    · omega
    · rw [Piece.ofFormat_nil, List.map_nil, List.sum_nil]
      omega

end Groups

section Blank

variable {cs : List Char}

/-- Nothing is shown by the format without characters and by a single `%`. -/
theorem ofFormat_stops_iff : (∀ p ∈ Piece.ofFormat cs, p = .stop) ↔ cs = [] ∨ cs = ['%'] := by
  induction cs using Piece.format_induction with
  | nil => simp
  | char c r hc ih => simp [Piece.ofFormat_char hc, hc]
  | doubled r ih => simp [Piece.ofFormat_doubled]
  | dropped r hhead hr ih =>
    have hlone : r ≠ ['%'] := fun h => hhead (by rw [h]; rfl)
    simp [Piece.ofFormat_dropped hhead hr, ih, hlone]
  | directive key r tag audio video rest hne hkey hhead hgroups ih =>
    simp [Piece.ofFormat_directive hne hkey hhead hgroups]

theorem empty_not_mem_ofFormat : .empty ∉ nodesOfPieces [] (Piece.ofFormat cs) := by
  intro hmem
  rcases mem_nodesOfPieces hmem with hpiece | ⟨t, ht, -⟩
  · have hfits : Node.empty.FitsRoot fun _ => True :=
      fitsRoot_of_mem_ofFormat (by simpa using hpiece)
    exact hfits
  · cases ht

/-- The root is blank for the empty format and for a single `%`, and for no other format. -/
theorem isBlank_root_iff (format : String) : (Tree.compile format).root.isBlank = true ↔
    format = "" ∨ format = "%" := by
  have hnodes : (Tree.compile format).root.isBlank = true ↔
      nodesOfPieces [] (Piece.ofFormat format.toList) = [] := by
    rw [Chain.isBlank, Tree.compile, Chain.ofPieces, Chain.toNodes_ofNodes]
    split
    · next hnil => simp [hnil]
    · next hne =>
      refine iff_of_false (fun hall => ?_) hne
      obtain ⟨node, hmem⟩ := List.exists_mem_of_ne_nil _ hne
      have hempty := List.all_eq_true.mp hall node hmem
      exact empty_not_mem_ofFormat (eq_of_beq hempty ▸ hmem)
  rw [hnodes, nodesOfPieces_eq_nil_iff, ofFormat_stops_iff, ← String.toList_inj,
    ← String.toList_inj]
  simp

end Blank

/-- A compiled tree has at most one node more than its format has characters. Its root shows nothing
only if the format is empty or a single `%`. -/
theorem nodeCount_compile_le (format : String) :
    (Tree.compile format).nodeCount ≤ format.length + 1 ∧
      ((Tree.compile format).root.isBlank = true ↔ format = "" ∨ format = "%") := by
  refine ⟨Chain.nodeCount_ofNodes_le ?_ (Nat.succ_le_succ (Nat.zero_le _)), isBlank_root_iff format⟩
  have hnodes := sum_nodesOfPieces_le [] (Piece.ofFormat format.toList)
  have hpieces := sum_size_ofFormat_le format.toList
  rw [List.length_nil, Nat.zero_add] at hnodes
  exact hnodes.trans hpieces

/-- Three characters can give four nodes. -/
example : (Tree.compile "%a\x7b").nodeCount = 4 := by decide +kernel

end PlayerText.Display
