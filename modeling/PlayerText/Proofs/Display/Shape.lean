import PlayerText.Display.Tree
import PlayerText.Proofs.Display.Piece

/-!
# The shape of a compiled tree

What a compiled tree looks like, whatever the format was. A chain is a single `Node.empty`, or it
holds no empty node at all. At the root stand texts and conditional nodes, in a branch texts,
properties of the branch's own key and display names.

* `IsKey`, `Node.FitsBranch`, `Node.CanPrecede`, `Chain.IsBranch`: keys and branches.
* `Node.FitsRoot`, `PercentsAtEnd`, `Chain.IsRoot`: the root.
* `isChain_ofGroup`, `fitsBranch_of_comesFrom`, `isBranch_ofGroup`: what is read from a group.
* `isChain_ofFormat`, `fitsRoot_of_mem_ofFormat`: what is read from a format.
* `isRoot_compile`: every compiled tree has this shape.
-/

namespace PlayerText.Display

open Text

/-- A key that a directive can have. -/
structure IsKey (key : String) : Prop where
  ne_empty : key ≠ ""
  no_brace : '{' ∉ key.toList
  no_percent : key.toList.head? ≠ some '%'

/-- A node that can stand in a branch of a directive for `key`. -/
def Node.FitsBranch (key : String) : Node → Prop
  | .text t => t ≠ "" ∧ '}' ∉ t.toList
  | .property k => k = key
  | .displayName => True
  | .empty | .conditional .. => False

/-- Two nodes that can stand side by side in a branch. Two texts would be one, and a marker before
the same marker would be a doubled one. -/
def Node.CanPrecede : Node → Node → Prop
  | .text _, .text _ => False
  | .property _, .property _ => False
  | .property _, .text t => t.toList.head? ≠ some '#'
  | .displayName, .displayName => False
  | .displayName, .text t => t.toList.head? ≠ some '$'
  | _, _ => True

/-- A branch of a directive for `key`: nothing, or some nodes that fit beside each other. -/
def Chain.IsBranch (key : String) (chain : Chain) : Prop :=
  chain.toNodes = [.empty] ∨
    chain.toNodes ≠ [] ∧ (∀ node ∈ chain.toNodes, node.FitsBranch key) ∧
      chain.toNodes.IsChain Node.CanPrecede

/-- A node that can stand at the root, where texts are as `plain` says. -/
def Node.FitsRoot (plain : String → Prop) : Node → Prop
  | .text t => t ≠ "" ∧ plain t
  | .conditional key tag audio video =>
    IsKey key ∧ tag.IsBranch key ∧ audio.IsBranch key ∧ video.IsBranch key
  | .empty | .property _ | .displayName => False

/-- The root of a tree: nothing, or some nodes that fit there. -/
def Chain.IsRoot (plain : String → Prop) (chain : Chain) : Prop :=
  chain.toNodes = [.empty] ∨
    chain.toNodes ≠ [] ∧ ∀ node ∈ chain.toNodes, node.FitsRoot plain

/-- A text in which `%` occurs in a run at the end only. -/
def PercentsAtEnd (t : String) : Prop :=
  ∃ before n, t.toList = before ++ List.replicate n '%' ∧ '%' ∉ before

/-! ## Branches -/

/-- Two pieces of a group that can stand side by side. -/
def Piece.CanPrecede : Piece → Piece → Prop
  | .node (.property _), .char c => c ≠ '#'
  | .node (.property _), .node (.property _) => False
  | .node .displayName, .char c => c ≠ '$'
  | .node .displayName, .node .displayName => False
  | _, _ => True

section Branches

variable {key : String} {cs pending : List Char} {pieces : List Piece}

/-- No marker is read right before the same marker: the two would be read as a doubled one. -/
theorem isChain_ofGroup (key : String) (cs : List Char) :
    (Piece.ofGroup key cs).IsChain Piece.CanPrecede := by
  induction cs using Piece.group_induction with
  | nil => exact .nil
  | char c r hp hd ih =>
    rw [Piece.ofGroup_char hp hd]
    exact List.isChain_cons.mpr ⟨fun _ _ => trivial, ih⟩
  | doubled c r hc ih =>
    rw [Piece.ofGroup_doubled hc]
    exact List.isChain_cons.mpr ⟨fun _ _ => trivial, ih⟩
  | property r hr ih =>
    rw [Piece.ofGroup_property hr]
    refine List.isChain_cons.mpr ⟨fun p hp => ?_, ih⟩
    obtain ⟨c, hc, rfl | ⟨rfl, -⟩ | ⟨-, rfl⟩⟩ := Piece.head?_ofGroup hp
    · rintro rfl
      exact hr hc
    · exact absurd hc hr
    · trivial
  | displayName r hr ih =>
    rw [Piece.ofGroup_displayName hr]
    refine List.isChain_cons.mpr ⟨fun p hp => ?_, ih⟩
    obtain ⟨c, hc, rfl | ⟨-, rfl⟩ | ⟨rfl, -⟩⟩ := Piece.head?_ofGroup hp
    · rintro rfl
      exact hr hc
    · trivial
    · exact absurd hc hr

/-- Characters that are pending begin the next text. -/
theorem exists_head?_nodesOfPieces (pieces : List Piece) (h : pending ≠ []) :
    ∃ t, (nodesOfPieces pending pieces).head? = some (.text t) ∧
      t.toList.head? = pending.getLast? := by
  fun_induction nodesOfPieces pending pieces with
  | case1 pending => exact ⟨_, by rw [pendingText_of_ne_nil h]; rfl, by simp⟩
  | case2 pending c rest ih =>
    obtain ⟨t, ht, hlast⟩ := ih (List.cons_ne_nil c pending)
    exact ⟨t, ht, by rw [hlast, List.getLast?_cons_of_ne_nil h]⟩
  | case3 pending rest ih => exact ⟨_, by rw [pendingText_of_ne_nil h]; rfl, by simp⟩
  | case4 pending node rest ih => exact ⟨_, by rw [pendingText_of_ne_nil h]; rfl, by simp⟩

/-- The nodes that markers give in a directive for `key`. -/
def Node.IsMarker (key : String) (node : Node) : Prop := node = .property key ∨ node = .displayName

/-- Markers that can stand before a piece can stand before the node that the piece gives. -/
theorem Node.IsMarker.canPrecede {node other : Node} (hnode : node.IsMarker key)
    (hstop : .stop ∉ pieces) (hmarkers : ∀ node, .node node ∈ pieces → node.IsMarker key)
    (h : ∀ p ∈ pieces.head?, Piece.CanPrecede (.node node) p)
    (hother : other ∈ (nodesOfPieces [] pieces).head?) : node.CanPrecede other := by
  cases pieces with
  | nil => cases hother
  | cons p rest =>
    have hp := h p rfl
    cases p with
    | stop => exact absurd List.mem_cons_self hstop
    | char c =>
      obtain ⟨t, ht, hc⟩ := exists_head?_nodesOfPieces rest (List.cons_ne_nil c [])
      rw [nodesOfPieces, ht] at hother
      cases hother
      rcases hnode with rfl | rfl
      · exact fun hsharp => hp (Option.some.inj (hc.symm.trans hsharp))
      · exact fun hdollar => hp (Option.some.inj (hc.symm.trans hdollar))
    | node inner =>
      cases hother
      rcases hnode with rfl | rfl <;> rcases hmarkers other List.mem_cons_self with rfl | rfl <;>
        exact hp

theorem isChain_nodesOfPieces (hstop : .stop ∉ pieces)
    (hmarkers : ∀ node, .node node ∈ pieces → node.IsMarker key)
    (h : pieces.IsChain Piece.CanPrecede) :
    (nodesOfPieces pending pieces).IsChain Node.CanPrecede := by
  fun_induction nodesOfPieces pending pieces with
  | case1 pending => cases pending <;> simp [pendingText]
  | case2 pending c rest ih =>
    exact ih (List.not_mem_of_not_mem_cons hstop)
      (fun node hmem => hmarkers node (List.mem_cons_of_mem _ hmem)) h.tail
  | case3 pending rest ih => exact absurd List.mem_cons_self hstop
  | case4 pending node rest ih =>
    have hrest : .stop ∉ rest := List.not_mem_of_not_mem_cons hstop
    have hothers : ∀ node, .node node ∈ rest → node.IsMarker key :=
      fun node hmem => hmarkers node (List.mem_cons_of_mem _ hmem)
    have hnode := hmarkers node List.mem_cons_self
    have hfrom : (node :: nodesOfPieces [] rest).IsChain Node.CanPrecede :=
      List.isChain_cons.mpr
        ⟨fun _ hother => hnode.canPrecede hrest hothers (List.isChain_cons.mp h).1 hother,
          ih hrest hothers h.tail⟩
    cases pending with
    | nil => exact hfrom
    | cons c pending =>
      refine List.isChain_cons.mpr ⟨fun other hother => ?_, hfrom⟩
      cases hother
      rcases hnode with rfl | rfl <;> trivial

theorem stop_not_mem_ofGroup : .stop ∉ Piece.ofGroup key cs := by
  intro hmem
  rcases Piece.mem_ofGroup hmem with ⟨c, -, hc⟩ | hc | hc <;> cases hc

theorem isMarker_of_mem_ofGroup {node : Node} (h : .node node ∈ Piece.ofGroup key cs) :
    node.IsMarker key := by
  rcases Piece.mem_ofGroup h with ⟨c, -, hc⟩ | hc | hc <;> cases hc
  · exact .inl rfl
  · exact .inr rfl

theorem mem_of_char_mem_ofGroup {c : Char} (h : .char c ∈ Piece.ofGroup key cs) : c ∈ cs := by
  rcases Piece.mem_ofGroup h with ⟨d, hd, hc⟩ | hc | hc <;> cases hc
  exact hd

/-- A node that is read from a group fits in a branch. -/
theorem fitsBranch_of_comesFrom {node : Node} (h : '}' ∉ cs)
    (hnode : node.ComesFrom (Piece.ofGroup key cs)) : node.FitsBranch key := by
  rcases hnode with hpiece | ⟨t, rfl, ht, hrun⟩
  · rcases isMarker_of_mem_ofGroup hpiece with rfl | rfl
    · rfl
    · trivial
  · refine ⟨ht, ?_⟩
    intro hclose
    have hchar := hrun.subset (List.mem_map_of_mem hclose)
    exact h (mem_of_char_mem_ofGroup hchar)

/-- What is read from a group is a branch. -/
theorem isBranch_ofGroup (key : String) (h : '}' ∉ cs) : (Chain.ofGroup key cs).IsBranch key := by
  have hchain : (nodesOfPieces [] (Piece.ofGroup key cs)).IsChain Node.CanPrecede :=
    isChain_nodesOfPieces stop_not_mem_ofGroup (fun _ => isMarker_of_mem_ofGroup)
      (isChain_ofGroup key cs)
  unfold Chain.IsBranch Chain.ofGroup Chain.ofPieces
  rw [Chain.toNodes_ofNodes]
  split
  · exact .inl rfl
  · next hne =>
    refine .inr ⟨hne, fun node hmem => fitsBranch_of_comesFrom h ?_, hchain⟩
    simpa using mem_nodesOfPieces hmem

end Branches

/-! ## The root -/

/-- Two pieces of a format that can stand side by side: a shown `%` is followed by no other
character. -/
def Piece.PercentLast (p q : Piece) : Prop := p = .char '%' → ∀ c, q = .char c → c = '%'

section Root

variable {cs : List Char}

/-- What is read from a `%` on begins with no other character. -/
theorem head?_ofFormat_percent {p : Piece} {c : Char}
    (h : p ∈ (Piece.ofFormat ('%' :: cs)).head?) (hc : p = .char c) : c = '%' := by
  subst hc
  by_cases hhead : cs.head? = some '%'
  · obtain ⟨r, rfl⟩ := List.head?_eq_some_iff.mp hhead
    rw [Piece.ofFormat_doubled] at h
    cases h
    rfl
  · rcases Piece.exists_key_or cs with ⟨key, r, hne, hkey, rfl⟩ | hno
    · obtain ⟨tag, audio, video, rest, hgroups⟩ := exists_threeGroups ('{' :: r)
      rw [List.head?_append_of_ne_nil _ hne] at hhead
      rw [Piece.ofFormat_directive hne hkey hhead hgroups] at h
      cases h
    · rw [Piece.ofFormat_dropped hhead hno] at h
      cases h

theorem isChain_ofFormat (cs : List Char) : (Piece.ofFormat cs).IsChain Piece.PercentLast := by
  induction cs using Piece.format_induction with
  | nil => simp
  | char c r hc ih =>
    rw [Piece.ofFormat_char hc]
    refine List.isChain_cons.mpr ⟨fun _ _ hp => ?_, ih⟩
    cases hp
    contradiction
  | doubled r ih =>
    rw [Piece.ofFormat_doubled]
    exact List.isChain_cons.mpr ⟨fun p hp _ _ hq => head?_ofFormat_percent hp hq, ih⟩
  | dropped r hhead hr ih =>
    rw [Piece.ofFormat_dropped hhead hr]
    exact List.isChain_cons.mpr ⟨fun _ _ hp => (nomatch hp), ih⟩
  | directive key r tag audio video rest hne hkey hhead hgroups ih =>
    rw [Piece.ofFormat_directive hne hkey hhead hgroups]
    exact List.isChain_cons.mpr ⟨fun _ _ hp => (nomatch hp), ih⟩

/-- Where no other character follows a `%`, the `%` are at the end. -/
theorem exists_percents (h : cs.IsChain fun a b => a = '%' → b = '%') :
    ∃ before n, cs = before ++ List.replicate n '%' ∧ '%' ∉ before := by
  induction cs with
  | nil => exact ⟨[], 0, rfl, List.not_mem_nil⟩
  | cons c cs ih =>
    obtain ⟨before, n, rfl, hbefore⟩ := ih h.tail
    by_cases hc : c = '%'
    · subst hc
      cases before with
      | nil => exact ⟨[], n + 1, rfl, List.not_mem_nil⟩
      | cons b before =>
        have hb : b = '%' := (List.isChain_cons.mp h).1 b rfl rfl
        exact absurd (hb ▸ List.mem_cons_self) hbefore
    · refine ⟨c :: before, n, rfl, fun hmem => ?_⟩
      rcases List.mem_cons.mp hmem with heq | hmem
      · exact hc heq.symm
      · exact hbefore hmem

theorem fitsRoot_ofGroups {plain : String → Prop} {key r tag audio video rest : List Char}
    (hne : key ≠ []) (hkey : '{' ∉ key) (hhead : key.head? ≠ some '%')
    (h : ThreeGroups r tag audio video rest) :
    (Node.ofGroups key tag audio video).FitsRoot plain := by
  obtain ⟨htag, haudio, hvideo⟩ := h
  refine ⟨⟨?_, ?_, ?_⟩, isBranch_ofGroup _ htag.not_mem, isBranch_ofGroup _ haudio.not_mem,
    isBranch_ofGroup _ hvideo.not_mem⟩
  · simpa using hne
  · simpa using hkey
  · simpa using hhead

theorem fitsRoot_of_mem_ofFormat {plain : String → Prop} {node : Node}
    (h : .node node ∈ Piece.ofFormat cs) : node.FitsRoot plain := by
  induction cs using Piece.format_induction with
  | nil => simp at h
  | char c r hc ih => rw [Piece.ofFormat_char hc] at h; exact ih (by simpa using h)
  | doubled r ih => rw [Piece.ofFormat_doubled] at h; exact ih (by simpa using h)
  | dropped r hhead hr ih => rw [Piece.ofFormat_dropped hhead hr] at h; exact ih (by simpa using h)
  | directive key r tag audio video rest hne hkey hhead hgroups ih =>
    rw [Piece.ofFormat_directive hne hkey hhead hgroups] at h
    rcases List.mem_cons.mp h with heq | h
    · cases heq
      exact fitsRoot_ofGroups hne hkey hhead hgroups
    · exact ih h

/-- A run of shown characters has its `%` at the end. -/
theorem percentsAtEnd_of_run {t : String} (h : t.toList.map Piece.char <:+: Piece.ofFormat cs) :
    PercentsAtEnd t := by
  apply exists_percents
  obtain ⟨before, after, heq⟩ := h
  have hchain := isChain_ofFormat cs
  rw [← heq] at hchain
  refine ((List.isChain_map _).mp hchain.left_of_append.right_of_append).imp fun a b hab ha => ?_
  exact hab (congrArg _ ha) b rfl

end Root

/-- Every compiled tree has the shape of a tree, and its texts outside the groups show `%` only in a
run at their end. -/
theorem isRoot_compile (format : String) : (Tree.compile format).root.IsRoot PercentsAtEnd := by
  unfold Chain.IsRoot Tree.compile Chain.ofPieces
  rw [Chain.toNodes_ofNodes]
  split
  · exact .inl rfl
  · next hne =>
    refine .inr ⟨hne, fun node hmem => ?_⟩
    rcases mem_nodesOfPieces hmem with hpiece | ⟨t, rfl, ht, hrun⟩
    · exact fitsRoot_of_mem_ofFormat (by simpa using hpiece)
    · exact ⟨ht, percentsAtEnd_of_run (by simpa using hrun)⟩

end PlayerText.Display
