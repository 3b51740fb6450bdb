import PlayerText.Proofs.Display.Dependence

/-!
# Parts of a tree that are never shown

The branches for audio and video are shown only where the key of their directive is missing. Their
properties ask for that same key and so show nothing; and as every item has a title, a directive for
the title never shows these branches at all. Both can be taken out of a compiled tree, and it shows
the same of every item.

* `Chain.prune`: a tree without properties in its branches for audio and video.
* `Chain.SameButTitles`: trees that differ at most in the branches that a title hides.
* `View.choose_congr`: the branches for audio and video count only where the key is missing.
* `Node.HoldsOwn`, `holdsOwn_compile`: in a compiled tree, a property stands in a directive for its
  key.
* `Chain.render_prune`, `Chain.render_blankTitles`: what is taken out was not shown.
* `evaluate_dead_branches`: compiled trees can be cut down so.
-/

namespace PlayerText.Display

/-! ## Cutting a tree down -/

/-- Whether a node shows metadata. -/
def Node.isProperty : Node → Bool
  | .property _ => true
  | _ => false

/-- A chain without its properties; the chain that shows nothing if no other node is in it. -/
def Chain.withoutProperties (chain : Chain) : Chain :=
  ofNodes (chain.toNodes.filter fun node => !node.isProperty)

mutual

/-- A node without properties in any branch for audio or video. -/
def Node.prune : Node → Node
  | .conditional key tag audio video =>
    .conditional key tag.prune audio.prune.withoutProperties video.prune.withoutProperties
  | node => node

/-- A chain without properties in any branch for audio or video. -/
def Chain.prune : Chain → Chain
  | .last node => .last node.prune
  | .cons node rest => .cons node.prune rest.prune

end

mutual

/-- A node with nothing in the branches for audio and video of any directive for the title. -/
def Node.blankTitles : Node → Node
  | .conditional key tag audio video =>
    if key = titleKey then .conditional key tag.blankTitles default default
    else .conditional key tag.blankTitles audio.blankTitles video.blankTitles
  | node => node

/-- A chain with nothing in the branches for audio and video of any directive for the title. -/
def Chain.blankTitles : Chain → Chain
  | .last node => .last node.blankTitles
  | .cons node rest => .cons node.blankTitles rest.blankTitles

end

/-- Two chains differ at most in what the branches for audio and video of directives for the title
hold: with these branches left blank they are one. -/
def Chain.SameButTitles (chain other : Chain) : Prop := chain.blankTitles = other.blankTitles

instance (chain other : Chain) : Decidable (chain.SameButTitles other) :=
  inferInstanceAs (Decidable (chain.blankTitles = other.blankTitles))

/-! ## What is not shown -/

section Rendering

variable {view : View}

@[simp] theorem View.has_title : view.has titleKey = true := by simp [View.has]

/-- The branches for audio and video count only where the key is missing. -/
theorem View.choose_congr {α : Type} {key : String} {tag audio video tag' audio' video' : α}
    (htag : tag = tag') (hmissing : view.has key = false → audio = audio' ∧ video = video') :
    view.choose key tag audio video = view.choose key tag' audio' video' := by
  unfold View.choose
  cases hkey : view.has key with
  | true => exact htag
  | false =>
    obtain ⟨haudio, hvideo⟩ := hmissing hkey
    rw [haudio, hvideo]
    rfl

theorem View.get?_eq_none_of_has {key : String} (h : view.has key = false) :
    view.get? key = none := by
  rw [View.has_eq] at h
  simpa using h

/-- Nodes that show nothing can be left out. -/
theorem join_filter_render {nodes : List Node} {p : Node → Bool}
    (h : ∀ node ∈ nodes, p node = false → node.render view = "") :
    String.join ((nodes.filter p).map (Node.render view)) =
      String.join (nodes.map (Node.render view)) := by
  induction nodes with
  | nil => rfl
  | cons node nodes ih =>
    obtain ⟨hnode, hnodes⟩ := List.forall_mem_cons.mp h
    rw [List.map_cons, String.join_cons, ← ih hnodes, List.filter_cons]
    cases hp : p node with
    | true => rw [if_pos rfl, List.map_cons, String.join_cons]
    | false => rw [if_neg Bool.false_ne_true, hnode hp, String.empty_append]

/-- Properties of a missing key show nothing. -/
theorem Chain.render_withoutProperties {chain : Chain} {key : String}
    (hmissing : view.has key = false) (hown : ∀ k, .property k ∈ chain.toNodes → k = key) :
    chain.withoutProperties.render view = chain.render view := by
  rw [withoutProperties, render_ofNodes, render_eq, join_filter_render]
  intro node hmem hproperty
  cases node with
  | property k =>
    rw [Node.render, hown k hmem, View.get?_eq_none_of_has hmissing]
    rfl
  | _ => cases hproperty

theorem Chain.toNodes_prune : ∀ chain : Chain, chain.prune.toNodes = chain.toNodes.map Node.prune
  | .last _ => by simp [Chain.prune, Chain.toNodes]
  | .cons _ rest => by simp [Chain.prune, Chain.toNodes, Chain.toNodes_prune rest]

theorem Chain.property_mem_prune {chain : Chain} {key : String} :
    .property key ∈ chain.prune.toNodes ↔ .property key ∈ chain.toNodes := by
  have hnode : ∀ node : Node, node.prune = .property key ↔ node = .property key := by
    intro node
    cases node <;> simp [Node.prune]
  simp [Chain.toNodes_prune, hnode]

/-- In the branches for audio and video of a directive stand properties of its own key only. -/
def Node.HoldsOwn : Node → Prop
  | .conditional key _ audio video =>
    ∀ k, .property k ∈ audio.toNodes ∨ .property k ∈ video.toNodes → k = key
  | _ => True

mutual

/-- A node shows the same without the properties that ask for a missing key. -/
theorem Node.render_prune : ∀ node : Node, (∀ inner ∈ node.allNodes, inner.HoldsOwn) →
    node.prune.render view = node.render view
  | .empty, _ => rfl
  | .text _, _ => rfl
  | .property _, _ => rfl
  | .displayName, _ => rfl
  | .conditional key tag audio video, h => by
    have hown : ∀ k, .property k ∈ audio.toNodes ∨ .property k ∈ video.toNodes → k = key :=
      h _ List.mem_cons_self
    have htag := Chain.render_prune tag fun inner hmem => h inner (by simp [Node.allNodes, hmem])
    have haudio := Chain.render_prune audio fun inner hmem =>
      h inner (by simp [Node.allNodes, hmem])
    have hvideo := Chain.render_prune video fun inner hmem =>
      h inner (by simp [Node.allNodes, hmem])
    rw [Node.prune, Node.render, Node.render]
    refine View.choose_congr htag fun hmissing => ⟨?_, ?_⟩
    · rw [Chain.render_withoutProperties hmissing, haudio]
      exact fun k hk => hown k (.inl (Chain.property_mem_prune.mp hk))
    · rw [Chain.render_withoutProperties hmissing, hvideo]
      exact fun k hk => hown k (.inr (Chain.property_mem_prune.mp hk))

/-- A chain shows the same without the properties that ask for a missing key. -/
theorem Chain.render_prune : ∀ chain : Chain, (∀ inner ∈ chain.allNodes, inner.HoldsOwn) →
    chain.prune.render view = chain.render view
  | .last node, h => Node.render_prune node h
  | .cons node rest, h => by
    have hnode := Node.render_prune node fun inner hmem => h inner (List.mem_append_left _ hmem)
    have hrest := Chain.render_prune rest fun inner hmem => h inner (List.mem_append_right _ hmem)
    rw [Chain.prune, Chain.render, Chain.render, hnode, hrest]

end

mutual

/-- A node shows the same without the branches that the title hides. -/
theorem Node.render_blankTitles : ∀ node : Node, node.blankTitles.render view = node.render view
  | .empty => rfl
  | .text _ => rfl
  | .property _ => rfl
  | .displayName => rfl
  | .conditional key tag audio video => by
    have htag := Chain.render_blankTitles tag
    rw [Node.blankTitles]
    split
    · next htitle =>
      rw [Node.render, Node.render]
      refine View.choose_congr htag fun hmissing => ?_
      rw [htitle, View.has_title] at hmissing
      contradiction
    · have haudio := Chain.render_blankTitles audio
      have hvideo := Chain.render_blankTitles video
      rw [Node.render, Node.render, htag, haudio, hvideo]

/-- A chain shows the same without the branches that the title hides. -/
theorem Chain.render_blankTitles : ∀ chain : Chain,
    chain.blankTitles.render view = chain.render view
  | .last node => Node.render_blankTitles node
  | .cons node rest => by
    have hnode := Node.render_blankTitles node
    have hrest := Chain.render_blankTitles rest
    rw [Chain.blankTitles, Chain.render, Chain.render, hnode, hrest]

end

theorem Chain.SameButTitles.render_eq {chain other : Chain} (h : chain.SameButTitles other) :
    chain.render view = other.render view := by
  rw [← Chain.render_blankTitles chain, h, Chain.render_blankTitles]

end Rendering

/-! ## Compiled trees -/

/-- In a compiled tree, a property stands in a directive for its key. -/
theorem holdsOwn_compile {format : String} {node : Node}
    (h : node ∈ (Tree.compile format).root.allNodes) : node.HoldsOwn := by
  cases node with
  | conditional key tag audio video =>
    have own_of_mem : ∀ {branch : Chain} {k : String}, branch.IsBranch key →
        .property k ∈ branch.toNodes → k = key := fun hbranch hk =>
      (hbranch.fits (Chain.mem_allNodes hk)).resolve_left nofun
    rcases mem_allNodes_compile h with hempty | ⟨-, -, haudio, hvideo⟩ | ⟨_, -, hfit⟩
    · cases hempty
    · exact fun k hk => hk.elim (own_of_mem haudio) (own_of_mem hvideo)
    · exact hfit.elim
  | _ => trivial

/-- A compiled tree shows the same of every item when the properties are taken out of its branches
for audio and video, and when the branches for audio and video of the title are changed to anything,
in the tree as it was compiled and in the one without these properties. -/
theorem evaluate_dead_branches (format displayName : String) (metadata : Metadata)
    (medium : Medium) :
    let tree := Tree.compile format
    ({ tree with root := tree.root.prune } : Tree).evaluate metadata displayName medium =
        tree.evaluate metadata displayName medium ∧
      ∀ other : Chain, other.SameButTitles tree.root ∨ other.SameButTitles tree.root.prune →
        ({ tree with root := other } : Tree).evaluate metadata displayName medium =
          tree.evaluate metadata displayName medium := by
  intro tree
  have of_render : ∀ other : Chain, (∀ view, other.render view = tree.root.render view) →
      ({ tree with root := other } : Tree).evaluate metadata displayName medium =
        tree.evaluate metadata displayName medium := fun other h => by
    rw [Tree.evaluate, Tree.evaluate, h]
  have hprune : ∀ view, tree.root.prune.render view = tree.root.render view := fun view =>
    Chain.render_prune _ fun _ hmem => holdsOwn_compile hmem
  refine ⟨of_render _ hprune, fun other hother => of_render _ fun view => ?_⟩
  rcases hother with hsame | hsame
  · exact hsame.render_eq
  · rw [hsame.render_eq, hprune]

/-- An artist that is missing, and a title with an album and a directive in its other branches. -/
theorem evaluate_dead_branches_artist :
    let metadata := Metadata.empty.set "album" "First"
    let format := "%artist\x7b#\x7d\x7ba #\x7d\x7b#\x7d%title\x7b[#]\x7d\x7bx\x7d\x7b#\x7d"
    let tree := Tree.compile format
    let artist := Node.conditional "artist" (.last (.property "artist")) (.last (.text "a ")) default
    let title := Node.conditional titleKey (.ofNodes [.text "[", .property titleKey, .text "]"])
      (.last (.property "album")) (.last artist)
    let other := Chain.ofNodes [artist, title]
    other.SameButTitles tree.root.prune ∧
      ({ tree with root := other } : Tree).evaluate metadata "song.mp3" .audio =
        tree.evaluate metadata "song.mp3" .audio ∧
      tree.evaluate metadata "song.mp3" .audio = "a [song.mp3]" := by
  intro metadata format tree artist title other
  have hother : other.SameButTitles tree.root.prune := by decide +kernel
  obtain ⟨-, hreplaced⟩ := evaluate_dead_branches format "song.mp3" metadata .audio
  exact ⟨hother, hreplaced other (.inr hother), by decide +kernel⟩

end PlayerText.Display
