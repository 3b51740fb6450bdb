import PlayerText.Proofs.Display.Shape
import PlayerText.Proofs.Text.Doubled

/-!
# Writing a tree as a format

A tree can be written back as a format. Texts outside groups stand as they are, a conditional node
is its directive with three groups, and in a group the markers of texts are doubled.

* `Chain.print`, `Chain.Canonical`: the format of a tree, and the trees that a format gives back.
* `ofGroup_printGroup`, `groups_print`, `ofFormat_print`: reading follows what was written.
* `nodesOfPieces_flatMap_toPieces`: nodes with no two texts side by side are found again.
* `root_compile_print`: compiling the format of a canonical tree gives the tree.
-/

namespace PlayerText.Display

open Text

/-- A node as it is written in a group, where a marker that is meant as a character is doubled. -/
def Node.printGroup : Node → List Char
  | .text t => doubled ['#', '$'] t.toList
  | .property _ => ['#']
  | .displayName => ['$']
  | .empty | .conditional .. => []

/-- A branch as it is written between the braces of a group. -/
def Chain.printGroup (chain : Chain) : List Char := chain.toNodes.flatMap Node.printGroup

/-- A node as it is written outside groups. -/
def Node.print : Node → List Char
  | .text t => t.toList
  | .conditional key tag audio video =>
    '%' :: (key.toList ++ '{' :: (tag.printGroup ++ '}' :: '{' :: (audio.printGroup ++ '}' ::
      '{' :: (video.printGroup ++ ['}']))))
  | .empty | .property _ | .displayName => []

/-- A tree as a format. -/
def Chain.print (chain : Chain) : String := String.ofList (chain.toNodes.flatMap Node.print)

/-- Whether a node is a text. -/
def Node.isText : Node → Bool
  | .text _ => true
  | _ => false

/-- A node as pieces, its text by characters. -/
def Node.toPieces : Node → List Piece
  | .text t => t.toList.map .char
  | node => [.node node]

/-- No two texts stand side by side. -/
def TextsApart (nodes : List Node) : Prop :=
  nodes.IsChain fun a b => ¬(a.isText = true ∧ b.isText = true)

/-- A tree as a format without any `%` in its texts gives it. -/
structure Chain.Canonical (chain : Chain) : Prop where
  isRoot : chain.IsRoot fun t => '%' ∉ t.toList
  apart : TextsApart chain.toNodes

/-! ## Texts -/

section Texts

variable {pending : List Char} {pieces : List Piece} {nodes : List Node}

theorem nodesOfPieces_chars (cs : List Char) :
    nodesOfPieces pending (cs.map .char ++ pieces) =
      nodesOfPieces (cs.reverse ++ pending) pieces := by
  induction cs generalizing pending with
  | nil => rfl
  | cons c cs ih => simp [nodesOfPieces, ih]

/-- A text ends where no character follows. -/
theorem nodesOfPieces_eq_append (h : ∀ c, pieces.head? ≠ some (.char c)) :
    nodesOfPieces pending pieces = pendingText pending ++ nodesOfPieces [] pieces := by
  cases pieces with
  | nil => simp [nodesOfPieces, pendingText]
  | cons p rest =>
    cases p with
    | char c => exact absurd rfl (h c)
    | stop => rfl
    | node => rfl

theorem head?_flatMap_toPieces (h : ∀ node ∈ nodes.head?, node.isText = false) (c : Char) :
    (nodes.flatMap Node.toPieces).head? ≠ some (.char c) := by
  cases nodes with
  | nil => simp
  | cons node rest =>
    have hnode := h node rfl
    cases node with
    | text => cases hnode
    | _ => simp [Node.toPieces]

/-- Taken apart into pieces and read again, nodes are the same. -/
theorem nodesOfPieces_flatMap_toPieces (htext : ∀ t, .text t ∈ nodes → t ≠ "")
    (h : TextsApart nodes) : nodesOfPieces [] (nodes.flatMap Node.toPieces) = nodes := by
  induction nodes with
  | nil => rfl
  | cons node rest ih =>
    have ih := ih (fun t hmem => htext t (List.mem_cons_of_mem _ hmem)) h.tail
    cases node with
    | text t =>
      have hnext : ∀ node ∈ rest.head?, node.isText = false := fun node hnode => by
        simpa [Node.isText] using (List.isChain_cons.mp h).1 node hnode
      have hne : t.toList.reverse ++ [] ≠ [] := by
        simpa using htext t List.mem_cons_self
      rw [List.flatMap_cons, Node.toPieces, nodesOfPieces_chars,
        nodesOfPieces_eq_append (head?_flatMap_toPieces hnext), ih, pendingText_of_ne_nil hne]
      simp
    | _ => rw [List.flatMap_cons]; exact congrArg _ ih

end Texts

/-! ## Groups -/

section Groups

variable {key : String} {cs r : List Char} {nodes : List Node} {chain : Chain}

theorem ofGroup_doubled_append (key : String) (cs r : List Char) :
    Piece.ofGroup key (doubled ['#', '$'] cs ++ r) = cs.map .char ++ Piece.ofGroup key r := by
  induction cs with
  | nil => rfl
  | cons c cs ih =>
    by_cases hc : c ∈ ['#', '$']
    · rw [doubled_mark hc, List.cons_append, List.cons_append,
        Piece.ofGroup_doubled (by simpa using hc), ih]
      rfl
    · obtain ⟨hp, hd⟩ : c ≠ '#' ∧ c ≠ '$' := by simpa using hc
      rw [doubled_plain hc, List.cons_append, Piece.ofGroup_char hp hd, ih]
      rfl

/-- After a marker nothing is written that begins with the same marker. -/
theorem head?_printGroup_ne {marker : Node} (hmarker : marker.IsMarker key)
    (hfits : ∀ node ∈ nodes, node.FitsBranch key)
    (h : (marker :: nodes).IsChain Node.CanPrecede) :
    (nodes.flatMap Node.printGroup).head? ≠ marker.printGroup.head? := by
  cases nodes with
  | nil => rcases hmarker with rfl | rfl <;> simp [Node.printGroup]
  | cons node rest =>
    have hnode := hfits node List.mem_cons_self
    have hnext := (List.isChain_cons.mp h).1 node rfl
    cases node with
    | text t =>
      rw [List.flatMap_cons, Node.printGroup, head?_doubled_append (by simpa using hnode.1)]
      rcases hmarker with rfl | rfl <;> exact hnext
    | property => rcases hmarker with rfl | rfl <;> simp_all [Node.printGroup, Node.CanPrecede]
    | displayName => rcases hmarker with rfl | rfl <;> simp_all [Node.printGroup, Node.CanPrecede]
    | empty => cases hnode
    | conditional => cases hnode

/-- A group is read as it was written. -/
theorem ofGroup_printGroup (hfits : ∀ node ∈ nodes, node.FitsBranch key)
    (h : nodes.IsChain Node.CanPrecede) :
    Piece.ofGroup key (nodes.flatMap Node.printGroup) = nodes.flatMap Node.toPieces := by
  induction nodes with
  | nil => rfl
  | cons node rest ih =>
    obtain ⟨hnode, hrest⟩ := List.forall_mem_cons.mp hfits
    have ih := ih hrest h.tail
    cases node with
    | text t => rw [List.flatMap_cons, Node.printGroup, ofGroup_doubled_append, ih]; rfl
    | property k =>
      cases hnode
      rw [List.flatMap_cons, Node.printGroup, List.singleton_append,
        Piece.ofGroup_property (head?_printGroup_ne (.inl rfl) hrest h), ih]
      rfl
    | displayName =>
      rw [List.flatMap_cons, Node.printGroup, List.singleton_append,
        Piece.ofGroup_displayName (head?_printGroup_ne (.inr rfl) hrest h), ih]
      rfl
    | empty => cases hnode
    | conditional => cases hnode

theorem Node.CanPrecede.textsApart {a b : Node} (h : a.CanPrecede b) :
    ¬(a.isText = true ∧ b.isText = true) := by
  rintro ⟨ha, hb⟩
  cases a with
  | text => cases b with
    | text => exact h
    | _ => cases hb
  | _ => cases ha

theorem Chain.eq_default {chain : Chain} (h : chain.toNodes = [.empty]) : chain = default := by
  rw [← ofNodes_toNodes chain, h]
  rfl

/-- A branch comes back from its group. -/
theorem ofGroup_printGroup_isBranch (h : chain.IsBranch key) :
    Chain.ofGroup key chain.printGroup = chain := by
  rcases h with h | ⟨-, hfits, hchain⟩
  · rw [Chain.eq_default h]
    rfl
  · have hne : ∀ t, .text t ∈ chain.toNodes → t ≠ "" := fun t hmem => (hfits _ hmem).1
    have hapart : TextsApart chain.toNodes := hchain.imp fun _ _ => Node.CanPrecede.textsApart
    rw [Chain.ofGroup, Chain.ofPieces, Chain.printGroup, ofGroup_printGroup hfits hchain,
      nodesOfPieces_flatMap_toPieces hne hapart, Chain.ofNodes_toNodes]

theorem not_mem_printGroup (h : chain.IsBranch key) : '}' ∉ chain.printGroup := by
  intro hmem
  obtain ⟨node, hnode, hclose⟩ := List.mem_flatMap.mp hmem
  rcases h with h | ⟨-, hfits, -⟩
  · rw [h, List.mem_singleton] at hnode
    subst hnode
    cases hclose
  · have hfit := hfits node hnode
    cases node with
    | text t => exact hfit.2 (mem_doubled.mp hclose)
    | property => simp [Node.printGroup] at hclose
    | displayName => simp [Node.printGroup] at hclose
    | empty => cases hfit
    | conditional => cases hfit

end Groups

/-! ## Formats -/

/-- A directive is read as it was written. -/
theorem ofFormat_print_conditional {key : String} {tag audio video : Chain} (hkey : IsKey key)
    (htag : tag.IsBranch key) (haudio : audio.IsBranch key) (hvideo : video.IsBranch key)
    (r : List Char) :
    Piece.ofFormat ((Node.conditional key tag audio video).print ++ r) =
      .node (.conditional key tag audio video) :: Piece.ofFormat r := by
  have hne : key.toList ≠ [] := by simpa using hkey.ne_empty
  have hprint : (Node.conditional key tag audio video).print =
      closedDirective key.toList tag.printGroup audio.printGroup video.printGroup := rfl
  rw [hprint, Piece.ofFormat_closed hne hkey.no_brace hkey.no_percent (not_mem_printGroup htag)
    (not_mem_printGroup haudio) (not_mem_printGroup hvideo), Node.ofGroups, String.ofList_toList,
    ofGroup_printGroup_isBranch htag, ofGroup_printGroup_isBranch haudio,
    ofGroup_printGroup_isBranch hvideo]

/-- A format is read as it was written. -/
theorem ofFormat_print {nodes : List Node}
    (hfits : ∀ node ∈ nodes, node.FitsRoot fun t => '%' ∉ t.toList) :
    Piece.ofFormat (nodes.flatMap Node.print) = nodes.flatMap Node.toPieces := by
  induction nodes with
  | nil => simp
  | cons node rest ih =>
    obtain ⟨hnode, hrest⟩ := List.forall_mem_cons.mp hfits
    have ih := ih hrest
    rw [List.flatMap_cons, List.flatMap_cons, ← ih]
    cases node with
    | text t => exact Piece.ofFormat_plain hnode.2
    | conditional key tag audio video =>
      obtain ⟨hkey, htag, haudio, hvideo⟩ := hnode
      exact ofFormat_print_conditional hkey htag haudio hvideo _
    | empty => cases hnode
    | property => cases hnode
    | displayName => cases hnode

/-- Compiling the format of a canonical tree gives the tree. -/
theorem root_compile_print (chain : Chain) (h : chain.Canonical) :
    (Tree.compile chain.print).root = chain := by
  rw [Tree.compile, Chain.print, String.toList_ofList]
  rcases h.isRoot with hempty | ⟨-, hfits⟩
  · have hprint : (default : Chain).toNodes.flatMap Node.print = [] := rfl
    rw [Chain.eq_default hempty, hprint, Piece.ofFormat_nil]
    rfl
  · have hne : ∀ t, .text t ∈ chain.toNodes → t ≠ "" := fun t hmem => (hfits _ hmem).1
    rw [ofFormat_print hfits, Chain.ofPieces, nodesOfPieces_flatMap_toPieces hne h.apart,
      Chain.ofNodes_toNodes]

/-- A marker behind its own character, an empty group, and a brace behind the third group. -/
theorem root_compile_print_brace :
    let tag := Chain.ofNodes [.text "#", .property "artist", .displayName]
    let directive := Node.conditional "artist" tag default (.last (.text "$"))
    let chain := Chain.ofNodes [directive, .text "\x7bx\x7d"]
    chain.print = "%artist\x7b###$\x7d\x7b\x7d\x7b$$\x7d\x7bx\x7d" ∧ chain.Canonical ∧
      (Tree.compile chain.print).root = chain := by
  intro tag directive chain
  have hkey : IsKey "artist" := ⟨by decide, by decide, by decide⟩
  have htag : tag.IsBranch "artist" := by
    refine .inr ⟨by decide, ?_, ?_⟩
    · simp [tag, Chain.ofNodes, Chain.toNodes, Node.FitsBranch]
    · simp [tag, Chain.ofNodes, Chain.toNodes, Node.CanPrecede]
  have hvideo : (Chain.last (.text "$")).IsBranch "artist" := by
    refine .inr ⟨by decide, ?_, .singleton _⟩
    simp [Chain.toNodes, Node.FitsBranch]
  have hfits : ∀ node ∈ chain.toNodes, node.FitsRoot fun t => '%' ∉ t.toList := by
    intro node hmem
    rcases List.mem_cons.mp hmem with rfl | hmem
    · exact ⟨hkey, htag, .inl rfl, hvideo⟩
    · rw [List.mem_singleton.mp hmem]
      exact ⟨by decide, by decide⟩
  have hapart : TextsApart chain.toNodes := .cons_cons (by decide) (.singleton _)
  have hchain : chain.Canonical := ⟨.inr ⟨by decide, hfits⟩, hapart⟩
  exact ⟨by decide, hchain, root_compile_print chain hchain⟩

end PlayerText.Display
