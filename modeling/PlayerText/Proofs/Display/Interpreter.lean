import PlayerText.Display.Tree
import PlayerText.Proofs.Display.Piece

/-!
# What a format shows, without a tree

`interpret` reads a format once, from left to right, and gives the text at once: no nodes are made
and no characters are gathered into texts. It takes its keys and groups by the places of the braces.

* `interpret_char`, `interpret_doubled`, `interpret_dropped`, `interpret_directive`: its rules.
* `flatMap_ofGroup`, `flatMap_ofFormat`: the pieces of a group and of a format show the same.
* `toList_render_compile`: so does the compiled tree.
* `evaluate_compile_eq_interpret`: compiling a format and showing an item is interpreting it.
-/

namespace PlayerText.Display

open Text

section Interpreter

variable (metadata : Metadata) (displayName : String) (medium : Medium)

/-- The text under a key. Without one a title is the display name, and another key shows nothing. -/
def valueOf (key : String) : List Char :=
  match metadata.get? key with
  | some value => value.toList
  | none => if key = "title" then displayName.toList else []

/-- What a group shows in a directive for `key`. -/
def interpretGroup (key : String) : List Char → List Char
  | [] => []
  | '#' :: '#' :: r => '#' :: interpretGroup key r
  | '$' :: '$' :: r => '$' :: interpretGroup key r
  | '#' :: r => valueOf metadata displayName key ++ interpretGroup key r
  | '$' :: r => displayName.toList ++ interpretGroup key r
  | c :: r => c :: interpretGroup key r

/-- What a format shows of an item. -/
def interpret : List Char → List Char
  | [] => []
  | '%' :: '%' :: r => '%' :: interpret ('%' :: r)
  | '%' :: r =>
    if '{' ∉ r ∨ r.head? = some '{' then interpret r
    else
      let key := String.ofList (r.take (r.idxOf '{'))
      let tag := nextGroup (r.drop (r.idxOf '{'))
      let audio := nextGroup tag.2
      let video := nextGroup audio.2
      let group :=
        if metadata.has key ∨ key = "title" then tag.1
        else if medium = .audio then audio.1
        else video.1
      interpretGroup metadata displayName key group ++ interpret video.2
  | c :: r => c :: interpret r
termination_by cs => cs.length
decreasing_by
  · simp only [List.length_cons]; omega
  · simp only [List.length_cons]; omega
  · refine Nat.lt_succ_of_le ((length_nextGroup_le _).trans ((length_nextGroup_le _).trans
      ((length_nextGroup_le _).trans ?_)))
    rw [List.length_drop]
    exact Nat.sub_le _ _
  · simp only [List.length_cons]; omega

end Interpreter

section Rules

variable {metadata : Metadata} {displayName : String} {medium : Medium} {c : Char}
  {key r : List Char}

theorem interpretGroup_char {key : String} (hp : c ≠ '#') (hd : c ≠ '$') :
    interpretGroup metadata displayName key (c :: r) =
      c :: interpretGroup metadata displayName key r := by
  rw [interpretGroup] <;> intros <;> contradiction

theorem interpretGroup_doubled {key : String} (h : c = '#' ∨ c = '$') :
    interpretGroup metadata displayName key (c :: c :: r) =
      c :: interpretGroup metadata displayName key r := by
  rcases h with rfl | rfl <;> rfl

theorem interpretGroup_property {key : String} (h : r.head? ≠ some '#') :
    interpretGroup metadata displayName key ('#' :: r) =
      valueOf metadata displayName key ++ interpretGroup metadata displayName key r := by
  rw [interpretGroup]
  rintro s rfl
  exact h rfl

theorem interpretGroup_displayName {key : String} (h : r.head? ≠ some '$') :
    interpretGroup metadata displayName key ('$' :: r) =
      displayName.toList ++ interpretGroup metadata displayName key r := by
  rw [interpretGroup]
  rintro s rfl
  exact h rfl

@[simp] theorem interpret_nil : interpret metadata displayName medium [] = [] := by rw [interpret]

theorem interpret_char (h : c ≠ '%') : interpret metadata displayName medium (c :: r) =
    c :: interpret metadata displayName medium r := by
  rw [interpret]
  · exact fun _ hc => absurd hc h
  · exact fun hc => absurd hc h

theorem interpret_doubled : interpret metadata displayName medium ('%' :: '%' :: r) =
    '%' :: interpret metadata displayName medium ('%' :: r) := by
  rw [interpret]

theorem interpret_dropped (h : r.head? ≠ some '%') (hr : '{' ∉ r ∨ r.head? = some '{') :
    interpret metadata displayName medium ('%' :: r) = interpret metadata displayName medium r := by
  rw [interpret, if_pos hr]
  rintro s rfl
  exact h rfl

/-- The group that a directive shows. -/
def chosen (metadata : Metadata) (medium : Medium) (key : String) (tag audio video : List Char) :
    List Char :=
  if metadata.has key ∨ key = "title" then tag else if medium = .audio then audio else video

theorem interpret_directive {tag audio video rest : List Char} (hne : key ≠ []) (hkey : '{' ∉ key)
    (hhead : key.head? ≠ some '%') (h : ThreeGroups ('{' :: r) tag audio video rest) :
    interpret metadata displayName medium ('%' :: (key ++ '{' :: r)) =
      interpretGroup metadata displayName (String.ofList key)
          (chosen metadata medium (String.ofList key) tag audio video) ++
        interpret metadata displayName medium rest := by
  obtain ⟨htag, haudio, hvideo⟩ := h
  have hidx : (key ++ '{' :: r).idxOf '{' = key.length := by
    rw [List.idxOf_append_of_notMem hkey, List.idxOf_cons_self, Nat.add_zero]
  have hcs : (key ++ '{' :: r).head? = key.head? := List.head?_append_of_ne_nil _ hne
  have hopen : key.head? ≠ some '{' := fun hc => hkey (List.mem_of_mem_head? hc)
  rw [interpret, if_neg (by simp [hcs, hopen])]
  · simp only [hidx, List.take_left, List.drop_left, nextGroup_eq_group, htag.eq, haudio.eq,
      hvideo.eq]
    rfl
  · intro s hs
    rw [hs] at hcs
    exact hhead hcs.symm

end Rules

section Pieces

/-- What a piece shows of an item. -/
def Piece.shown (view : View) : Piece → List Char
  | .char c => [c]
  | .stop => []
  | .node inner => (inner.render view).toList

variable {view : View}

theorem flatMap_pendingText (pending : List Char) :
    ((pendingText pending).flatMap fun node => (node.render view).toList) = pending.reverse := by
  cases pending with
  | nil => rfl
  | cons => simp [pendingText, Node.render]

/-- Joined into texts, characters show what they show one by one. -/
theorem flatMap_nodesOfPieces (view : View) (pending : List Char) (pieces : List Piece) :
    ((nodesOfPieces pending pieces).flatMap fun node => (node.render view).toList) =
      pending.reverse ++ pieces.flatMap (Piece.shown view) := by
  fun_induction nodesOfPieces pending pieces with
  | case1 pending => simp [flatMap_pendingText]
  | case2 pending c rest ih => simp [ih, Piece.shown]
  | case3 pending rest ih => simp [ih, flatMap_pendingText, Piece.shown]
  | case4 pending node rest ih => simp [ih, flatMap_pendingText, Piece.shown]

theorem Chain.toList_render_ofPieces (pieces : List Piece) :
    ((ofPieces pieces).render view).toList = pieces.flatMap (Piece.shown view) := by
  rw [ofPieces, render_ofNodes, String.toList_join, List.flatMap_map, flatMap_nodesOfPieces,
    List.reverse_nil, List.nil_append]

theorem toList_get?_getD (key : String) :
    ((view.get? key).getD "").toList = valueOf view.metadata view.displayName key := by
  unfold View.get? valueOf
  cases view.metadata.get? key with
  | some value => rfl
  | none => by_cases h : key = "title" <;> simp [h, titleKey]

theorem flatMap_ofGroup (key : String) (cs : List Char) :
    (Piece.ofGroup key cs).flatMap (Piece.shown view) =
      interpretGroup view.metadata view.displayName key cs := by
  induction cs using Piece.group_induction with
  | nil => rfl
  | char c r hp hd ih => rw [Piece.ofGroup_char hp hd, interpretGroup_char hp hd, ← ih]; rfl
  | doubled c r hc ih => rw [Piece.ofGroup_doubled hc, interpretGroup_doubled hc, ← ih]; rfl
  | property r hr ih =>
    rw [Piece.ofGroup_property hr, interpretGroup_property hr, ← ih, ← toList_get?_getD]
    rfl
  | displayName r hr ih =>
    rw [Piece.ofGroup_displayName hr, interpretGroup_displayName hr, ← ih]
    rfl

theorem render_ofGroups (key tag audio video : List Char) :
    ((Node.ofGroups key tag audio video).render view).toList =
      interpretGroup view.metadata view.displayName (String.ofList key)
        (chosen view.metadata view.medium (String.ofList key) tag audio video) := by
  have hbranch : ∀ g, ((Chain.ofGroup (String.ofList key) g).render view).toList =
      interpretGroup view.metadata view.displayName (String.ofList key) g := fun g => by
    rw [Chain.ofGroup, Chain.toList_render_ofPieces, flatMap_ofGroup]
  unfold Node.ofGroups chosen
  by_cases hkey : view.metadata.has (String.ofList key) ∨ String.ofList key = "title"
  · have hhas : view.has (String.ofList key) = true := by
      simpa [View.has, titleKey, or_comm] using hkey
    rw [Node.render, View.choose, if_pos hhas, if_pos hkey, hbranch]
  · have hhas : ¬view.has (String.ofList key) = true := by
      simpa [View.has, titleKey, or_comm] using hkey
    rw [Node.render, View.choose, if_neg hhas, if_neg hkey]
    cases view.medium with
    | audio => exact hbranch audio
    | video => exact hbranch video

theorem flatMap_ofFormat (cs : List Char) :
    (Piece.ofFormat cs).flatMap (Piece.shown view) =
      interpret view.metadata view.displayName view.medium cs := by
  induction cs using Piece.format_induction with
  | nil => simp
  | char c r hc ih => rw [Piece.ofFormat_char hc, interpret_char hc, ← ih]; rfl
  | doubled r ih => rw [Piece.ofFormat_doubled, interpret_doubled, ← ih]; rfl
  | dropped r hhead hr ih =>
    rw [Piece.ofFormat_dropped hhead hr, interpret_dropped hhead hr, ← ih]
    rfl
  | directive key r tag audio video rest hne hkey hhead hgroups ih =>
    rw [Piece.ofFormat_directive hne hkey hhead hgroups,
      interpret_directive hne hkey hhead hgroups, ← ih, ← render_ofGroups]
    rfl

/-- A compiled tree shows what its format shows. -/
theorem toList_render_compile (view : View) (format : String) :
    ((Tree.compile format).root.render view).toList =
      interpret view.metadata view.displayName view.medium format.toList := by
  rw [Tree.compile, Chain.toList_render_ofPieces, flatMap_ofFormat]

end Pieces

/-- Compiling a format and evaluating the tree for an item is interpreting the format. -/
theorem evaluate_compile_eq_interpret (format displayName : String) (metadata : Metadata)
    (medium : Medium) (h : metadata.isEmpty = false) :
    (Tree.compile format).evaluate metadata displayName medium =
      String.ofList (interpret metadata displayName medium format.toList) := by
  rw [Tree.evaluate, h, if_neg Bool.false_ne_true,
    ← toList_render_compile ⟨metadata, displayName, medium⟩, String.ofList_toList]

/-- A doubled `%`, a present key, and a title that is missing in a group that is never closed. -/
theorem evaluate_compile_eq_interpret_unclosed :
    let metadata := Metadata.empty.set "artist" "Band"
    let format := "%%artist\x7bby #\x7d\x7b\x7d\x7b\x7d %title\x7b#"
    metadata.isEmpty = false ∧
      (Tree.compile format).evaluate metadata "song.mp3" .audio =
        String.ofList (interpret metadata "song.mp3" .audio format.toList) ∧
      interpret metadata "song.mp3" .audio format.toList = "%by Band song.mp3".toList := by
  have h : (Metadata.empty.set "artist" "Band").isEmpty = false := by
    simp [Metadata.isEmpty, Metadata.set]
  refine ⟨h, evaluate_compile_eq_interpret _ _ _ _ h, ?_⟩
  decide +kernel

end PlayerText.Display
