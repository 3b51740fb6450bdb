import PlayerText.Display.Tree
import PlayerText.Proofs.Display.Shape

/-!
# What a text depends on

A compiled tree looks at an item only through the keys of its conditional nodes: a property that it
shows stands in a branch of a conditional node with the same key. The type of the medium counts only
where one of these keys is missing.

* `Chain.allNodes`, `Chain.keys`: all nodes of a chain, and the keys of its conditional nodes.
* `View.AgreesOn`: two items agree on what one node looks at.
* `Chain.render_congr`: items that agree on every node are shown alike.
* `mem_allNodes_compile`: what nodes a compiled tree is made of.
* `property_mem_compile`: every property of a compiled tree has the key of a conditional node.
* `evaluate_congr_of_keys`: items that agree on the keys of a tree are shown alike, and where all of
  them are present the type of the medium does not matter.
-/

namespace PlayerText.Display

/-! ## The nodes of a tree -/

mutual

/-- A node and all nodes in its branches. -/
def Node.allNodes : Node → List Node
  | .conditional key tag audio video =>
    .conditional key tag audio video :: (tag.allNodes ++ audio.allNodes ++ video.allNodes)
  | node => [node]

/-- The nodes of a chain, those in branches included. -/
def Chain.allNodes : Chain → List Node
  | .last node => node.allNodes
  | .cons node rest => node.allNodes ++ rest.allNodes

end

/-- The key of a conditional node. -/
def Node.condition? : Node → Option String
  | .conditional key .. => some key
  | _ => none

/-- The keys of the conditional nodes of a chain. -/
def Chain.keys (chain : Chain) : List String := chain.allNodes.filterMap Node.condition?

theorem Chain.allNodes_eq : ∀ chain : Chain, chain.allNodes = chain.toNodes.flatMap Node.allNodes
  | .last node => by simp [Chain.allNodes, Chain.toNodes]
  | .cons node rest => by
    rw [Chain.allNodes, Chain.toNodes, List.flatMap_cons, Chain.allNodes_eq rest]

theorem Chain.mem_allNodes {chain : Chain} {node : Node} (h : node ∈ chain.toNodes) :
    node ∈ chain.allNodes := by
  have hself : node ∈ node.allNodes := by cases node <;> exact List.mem_cons_self
  rw [Chain.allNodes_eq]
  exact List.mem_flatMap.mpr ⟨node, h, hself⟩

theorem Chain.mem_keys_iff {chain : Chain} {key : String} :
    key ∈ chain.keys ↔ ∃ tag audio video, .conditional key tag audio video ∈ chain.allNodes := by
  refine List.mem_filterMap.trans ⟨?_, ?_⟩
  · rintro ⟨node, hmem, hkey⟩
    cases node with
    | conditional k tag audio video =>
      obtain rfl := Option.some.inj hkey
      exact ⟨tag, audio, video, hmem⟩
    | _ => cases hkey
  · rintro ⟨tag, audio, video, hmem⟩
    exact ⟨_, hmem, rfl⟩

/-! ## Items that are shown alike -/

/-- Two items agree on what a node looks at. The medium counts only where the key is missing. -/
def View.AgreesOn (v w : View) : Node → Prop
  | .empty | .text _ => True
  | .property key => v.get? key = w.get? key
  | .displayName => v.displayName = w.displayName
  | .conditional key .. => v.has key = w.has key ∧ (v.has key = true ∨ v.medium = w.medium)

theorem View.AgreesOn.choose {v w : View} {key : String} {tag audio video : Chain} {α : Type}
    (h : v.AgreesOn w (.conditional key tag audio video)) (x y z : α) :
    v.choose key x y z = w.choose key x y z := by
  obtain ⟨hhas, hpresent | hmedium⟩ := h
  · have hpresent' : w.has key = true := hhas ▸ hpresent
    rw [View.choose, View.choose, if_pos hpresent, if_pos hpresent']
  · rw [View.choose, View.choose, hhas, hmedium]

section Congruence

variable {v w : View}

mutual

/-- A node shows the same of items that agree on it and on all nodes in its branches. -/
theorem Node.render_congr : ∀ node : Node, (∀ inner ∈ node.allNodes, v.AgreesOn w inner) →
    node.render v = node.render w
  | .empty, _ => rfl
  | .text _, _ => rfl
  | .property key, h => by
    have hkey : v.get? key = w.get? key := h _ List.mem_cons_self
    rw [Node.render, Node.render, hkey]
  | .displayName, h => h _ List.mem_cons_self
  | .conditional key tag audio video, h => by
    have hchoose := (h _ List.mem_cons_self).choose
      (tag.render w) (audio.render w) (video.render w)
    have htag : tag.render v = tag.render w :=
      Chain.render_congr tag fun inner hmem => h inner (by simp [Node.allNodes, hmem])
    have haudio : audio.render v = audio.render w :=
      Chain.render_congr audio fun inner hmem => h inner (by simp [Node.allNodes, hmem])
    have hvideo : video.render v = video.render w :=
      Chain.render_congr video fun inner hmem => h inner (by simp [Node.allNodes, hmem])
    rw [Node.render, Node.render, htag, haudio, hvideo, hchoose]

/-- A chain shows the same of items that agree on all its nodes. -/
theorem Chain.render_congr : ∀ chain : Chain, (∀ inner ∈ chain.allNodes, v.AgreesOn w inner) →
    chain.render v = chain.render w
  | .last node, h => Node.render_congr node h
  | .cons node rest, h => by
    have hnode : node.render v = node.render w :=
      Node.render_congr node fun inner hmem => h inner (List.mem_append_left _ hmem)
    have hrest : rest.render v = rest.render w :=
      Chain.render_congr rest fun inner hmem => h inner (List.mem_append_right _ hmem)
    rw [Chain.render, Chain.render, hnode, hrest]

end

end Congruence

/-! ## The keys of a compiled tree -/

/-- At the root of a compiled tree stand texts and conditional nodes with branches of their own
key. -/
theorem mem_root_compile {format : String} {node : Node}
    (h : node ∈ (Tree.compile format).root.toNodes) :
    node = .empty ∨ node.FitsRoot fun _ => True := by
  rw [Tree.compile, Chain.ofPieces, Chain.toNodes_ofNodes] at h
  split at h
  · exact .inl (List.mem_singleton.mp h)
  · rcases mem_nodesOfPieces h with hpiece | ⟨t, rfl, ht, -⟩
    · exact .inr (fitsRoot_of_mem_ofFormat (by simpa using hpiece))
    · exact .inr ⟨ht, trivial⟩

/-- A branch of a directive holds nothing but what fits in it. -/
theorem Chain.IsBranch.fits {key : String} {chain : Chain} {node : Node} (h : chain.IsBranch key)
    (hmem : node ∈ chain.allNodes) : node = .empty ∨ node.FitsBranch key := by
  rw [Chain.allNodes_eq] at hmem
  obtain ⟨top, htop, hmem⟩ := List.mem_flatMap.mp hmem
  rcases h with hempty | ⟨-, hfits, -⟩
  · rw [hempty, List.mem_singleton] at htop
    subst htop
    exact .inl (by simpa [Node.allNodes] using hmem)
  · have hfit := hfits top htop
    cases top with
    | conditional => exact hfit.elim
    | _ =>
      obtain rfl := List.mem_singleton.mp hmem
      exact .inr hfit

/-- A node of a compiled tree fits at the root, or in a branch for one of the tree's keys. -/
theorem mem_allNodes_compile {format : String} {node : Node}
    (h : node ∈ (Tree.compile format).root.allNodes) :
    node = .empty ∨ (node.FitsRoot fun _ => True) ∨
      ∃ key ∈ (Tree.compile format).root.keys, node.FitsBranch key := by
  have hall := h
  rw [Chain.allNodes_eq] at hall
  obtain ⟨top, htop, hmem⟩ := List.mem_flatMap.mp hall
  rcases mem_root_compile htop with rfl | hfits
  · exact .inl (by simpa [Node.allNodes] using hmem)
  · cases top with
    | conditional key tag audio video =>
      have hkey := Chain.mem_keys_iff.mpr ⟨tag, audio, video, Chain.mem_allNodes htop⟩
      have hbranches := hfits
      obtain ⟨-, htag, haudio, hvideo⟩ := hbranches
      simp only [Node.allNodes, List.mem_cons, List.mem_append] at hmem
      rcases hmem with rfl | (hmem | hmem) | hmem
      · exact .inr (.inl hfits)
      · exact (htag.fits hmem).imp_right fun hfit => .inr ⟨key, hkey, hfit⟩
      · exact (haudio.fits hmem).imp_right fun hfit => .inr ⟨key, hkey, hfit⟩
      · exact (hvideo.fits hmem).imp_right fun hfit => .inr ⟨key, hkey, hfit⟩
    | _ =>
      obtain rfl := List.mem_singleton.mp hmem
      exact .inr (.inl hfits)

/-- A property that a compiled tree shows has the key of one of its conditional nodes. -/
theorem property_mem_compile {format k : String}
    (h : .property k ∈ (Tree.compile format).root.allNodes) :
    k ∈ (Tree.compile format).root.keys := by
  rcases mem_allNodes_compile h with hempty | hroot | ⟨key, hkey, hfit⟩
  · cases hempty
  · exact hroot.elim
  · have hown : k = key := hfit
    exact hown ▸ hkey

/-- A compiled tree shows the same of two items that agree on its keys. -/
theorem render_compile_congr {format : String} {v w : View} (hname : v.displayName = w.displayName)
    (hkeys : ∀ key ∈ (Tree.compile format).root.keys,
      v.get? key = w.get? key ∧ (v.has key = true ∨ v.medium = w.medium)) :
    (Tree.compile format).root.render v = (Tree.compile format).root.render w := by
  apply Chain.render_congr
  intro node hmem
  cases node with
  | empty => trivial
  | text => trivial
  | property key => exact (hkeys key (property_mem_compile hmem)).1
  | displayName => exact hname
  | conditional key tag audio video =>
    obtain ⟨hget, hmedium⟩ := hkeys key (Chain.mem_keys_iff.mpr ⟨tag, audio, video, hmem⟩)
    exact ⟨by rw [View.has_eq, View.has_eq, hget], hmedium⟩

/-- A compiled tree shows the same of two items with metadata that agree on the keys of its
conditional nodes, whatever else is known about them. Where each of these keys is present or the
title, it shows the same for audio and for video. -/
theorem evaluate_congr_of_keys (format displayName : String) :
    (∀ (m₁ m₂ : Metadata) (medium : Medium), m₁.isEmpty = false → m₂.isEmpty = false →
      (∀ key ∈ (Tree.compile format).root.keys, m₁.get? key = m₂.get? key) →
      (Tree.compile format).evaluate m₁ displayName medium =
        (Tree.compile format).evaluate m₂ displayName medium) ∧
    ∀ m : Metadata,
      (∀ key ∈ (Tree.compile format).root.keys, m.has key = true ∨ key = "title") →
      (Tree.compile format).evaluate m displayName .audio =
        (Tree.compile format).evaluate m displayName .video := by
  constructor
  · intro m₁ m₂ medium h₁ h₂ hkeys
    rw [Tree.evaluate, Tree.evaluate, h₁, h₂, if_neg Bool.false_ne_true, if_neg Bool.false_ne_true]
    refine render_compile_congr (by rfl) fun key hmem => ⟨?_, .inr rfl⟩
    rw [View.get?, View.get?, hkeys key hmem]
  · intro m hkeys
    unfold Tree.evaluate
    split
    · rfl
    · refine render_compile_congr (by rfl) fun key hmem => ⟨rfl, .inl ?_⟩
      rcases hkeys key hmem with hhas | htitle
      · rw [View.has, hhas, Bool.or_true]
      · rw [View.has, htitle]
        rfl

/-- Entries beside the artist do not count, and with an artist the type of the medium does not. -/
theorem evaluate_congr_of_keys_artist :
    let tree := Tree.compile "%artist\x7bby #\x7d\x7ba\x7d\x7bv\x7d, %title\x7b#\x7d"
    let m₁ := (Metadata.empty.set "artist" "Band").set "album" "First"
    let m₂ := (Metadata.empty.set "year" "1999").set "artist" "Band"
    (m₁.isEmpty = false ∧ m₂.isEmpty = false ∧
      (∀ key ∈ tree.root.keys, m₁.get? key = m₂.get? key) ∧
      tree.evaluate m₁ "song.mp3" .audio = tree.evaluate m₂ "song.mp3" .audio) ∧
    (∀ key ∈ tree.root.keys, m₁.has key = true ∨ key = "title") ∧
      tree.evaluate m₁ "song.mp3" .audio = tree.evaluate m₁ "song.mp3" .video := by
  intro tree m₁ m₂
  have hkeys : tree.root.keys = ["artist", "title"] := by decide +kernel
  have h₁ : m₁.isEmpty = false := by simp [m₁, Metadata.isEmpty, Metadata.set]
  have h₂ : m₂.isEmpty = false := by simp [m₂, Metadata.isEmpty, Metadata.set]
  have hsame : ∀ key ∈ tree.root.keys, m₁.get? key = m₂.get? key := by
    simp [hkeys, m₁, m₂]
  have hpresent : ∀ key ∈ tree.root.keys, m₁.has key = true ∨ key = "title" := by
    simp [hkeys, m₁]
  obtain ⟨hcongr, hmedium⟩ := evaluate_congr_of_keys
    "%artist\x7bby #\x7d\x7ba\x7d\x7bv\x7d, %title\x7b#\x7d" "song.mp3"
  exact ⟨⟨h₁, h₂, hsame, hcongr m₁ m₂ .audio h₁ h₂ hsame⟩, hpresent, hmedium m₁ hpresent⟩

end PlayerText.Display
