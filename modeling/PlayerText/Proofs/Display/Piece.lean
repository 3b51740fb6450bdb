import Mathlib.Data.List.Chain
import PlayerText.Display.Piece
import PlayerText.Proofs.Text.Group

/-!
# How a format is read into pieces

Each rule of the language is an equation of `Piece.ofFormat` or `Piece.ofGroup`. `format_induction`
and `group_induction` are the inductions that go with the rules.

* `ofGroup_char`, `ofGroup_doubled`, `ofGroup_property`, `ofGroup_displayName`: the rules of groups.
* `exists_key_or`: what follows a `%` is a directive, or its `%` shows nothing.
* `ofFormat_char`, `ofFormat_doubled`, `ofFormat_dropped`, `ofFormat_directive`: the rules of
  formats.
* `closedDirective`, `ofFormat_closed`: where a directive with closed groups ends.
* `mem_nodesOfPieces`: each text is a run of the characters between two other pieces.
-/

namespace PlayerText.Display

open Text

/-- The chain of a group in a directive for `key`. -/
def Chain.ofGroup (key : String) (group : List Char) : Chain := ofPieces (Piece.ofGroup key group)

/-- The node of a directive with its key and its three groups. -/
def Node.ofGroups (key tag audio video : List Char) : Node :=
  let name := String.ofList key
  .conditional name (.ofGroup name tag) (.ofGroup name audio) (.ofGroup name video)

/-- A directive as it is written, with all its groups closed. -/
def closedDirective (key tag audio video : List Char) : List Char :=
  '%' :: (key ++ '{' :: (tag ++ '}' :: '{' :: (audio ++ '}' :: '{' :: (video ++ ['}']))))

theorem closedDirective_append (key tag audio video rest : List Char) :
    closedDirective key tag audio video ++ rest =
      '%' :: (key ++ '{' :: (tag ++ '}' :: '{' :: (audio ++ '}' :: '{' ::
        (video ++ '}' :: rest)))) := by
  simp [closedDirective]

theorem head?_ne_of_forall {c : Char} {r : List Char} (h : ∀ s, r = c :: s → False) :
    r.head? ≠ some c := by
  intro hr
  obtain ⟨s, rfl⟩ := List.head?_eq_some_iff.mp hr
  exact h s rfl

namespace Piece

section Groups

variable {key : String} {c : Char} {r : List Char}

@[simp] theorem ofGroup_nil : ofGroup key [] = [] := rfl

/-- A doubled marker is that character. -/
theorem ofGroup_doubled (h : c = '#' ∨ c = '$') :
    ofGroup key (c :: c :: r) = char c :: ofGroup key r := by
  rcases h with rfl | rfl <;> rfl

theorem ofGroup_property (h : r.head? ≠ some '#') :
    ofGroup key ('#' :: r) = node (.property key) :: ofGroup key r := by
  rw [ofGroup]
  rintro s rfl
  exact h rfl

theorem ofGroup_displayName (h : r.head? ≠ some '$') :
    ofGroup key ('$' :: r) = node .displayName :: ofGroup key r := by
  rw [ofGroup]
  rintro s rfl
  exact h rfl

theorem ofGroup_char (hp : c ≠ '#') (hd : c ≠ '$') :
    ofGroup key (c :: r) = char c :: ofGroup key r := by
  rw [ofGroup] <;> intros <;> contradiction

/-- Induction over groups, with one case for each rule. -/
@[elab_as_elim]
theorem group_induction {motive : List Char → Prop} (cs : List Char) (nil : motive [])
    (char : ∀ c r, c ≠ '#' → c ≠ '$' → motive r → motive (c :: r))
    (doubled : ∀ c r, c = '#' ∨ c = '$' → motive r → motive (c :: c :: r))
    (property : ∀ r, r.head? ≠ some '#' → motive r → motive ('#' :: r))
    (displayName : ∀ r, r.head? ≠ some '$' → motive r → motive ('$' :: r)) : motive cs := by
  fun_induction ofGroup "" cs with
  | case1 r ih => exact doubled '#' r (.inl rfl) ih
  | case2 r ih => exact doubled '$' r (.inr rfl) ih
  | case3 r hr ih => exact property r (head?_ne_of_forall hr) ih
  | case4 r hr ih => exact displayName r (head?_ne_of_forall hr) ih
  | case5 c r _ _ hp hd ih => exact char c r (fun h => hp h) (fun h => hd h) ih
  | case6 => exact nil

theorem mem_ofGroup {p : Piece} {cs : List Char} (h : p ∈ ofGroup key cs) :
    (∃ c ∈ cs, p = .char c) ∨ p = .node (.property key) ∨ p = .node .displayName := by
  induction cs using group_induction with
  | nil => cases h
  | char c r hp hd ih => rw [ofGroup_char hp hd] at h; grind
  | doubled c r hc ih => rw [ofGroup_doubled hc] at h; grind
  | property r hr ih => rw [ofGroup_property hr] at h; grind
  | displayName r hr ih => rw [ofGroup_displayName hr] at h; grind

/-- The first character of a group tells its first piece. -/
theorem head?_ofGroup {p : Piece} {cs : List Char} (h : p ∈ (ofGroup key cs).head?) :
    ∃ c, cs.head? = some c ∧
      (p = .char c ∨ c = '#' ∧ p = .node (.property key) ∨ c = '$' ∧ p = .node .displayName) := by
  induction cs using group_induction with
  | nil => cases h
  | char c r hp hd _ => rw [ofGroup_char hp hd] at h; grind
  | doubled c r hc _ => rw [ofGroup_doubled hc] at h; grind
  | property r hr _ => rw [ofGroup_property hr] at h; grind
  | displayName r hr _ => rw [ofGroup_displayName hr] at h; grind

end Groups

section Directive

variable {cs key r tag audio video rest : List Char}

/-- After a `%` stands a key with a group behind it, or no brace, or a brace at once. -/
theorem exists_key_or (cs : List Char) :
    (∃ key r, key ≠ [] ∧ '{' ∉ key ∧ cs = key ++ '{' :: r) ∨ '{' ∉ cs ∨ cs.head? = some '{' := by
  by_cases h : '{' ∈ cs
  · obtain ⟨key, r, rfl, hkey⟩ := List.eq_append_cons_of_mem h
    cases key with
    | nil => exact .inr (.inr rfl)
    | cons c key => exact .inl ⟨c :: key, r, List.cons_ne_nil _ _, hkey, rfl⟩
  · exact .inr (.inl h)

theorem directive?_key (hne : key ≠ []) (hkey : '{' ∉ key)
    (h : ThreeGroups ('{' :: r) tag audio video rest) :
    directive? (key ++ '{' :: r) = some (Node.ofGroups key tag audio video, rest) := by
  obtain ⟨htag, haudio, hvideo⟩ := h
  unfold directive?
  rw [upTo?_append hkey]
  split
  · contradiction
  · next h => cases h; contradiction
  · next h =>
    cases h
    simp only [groups, htag.eq, haudio.eq, hvideo.eq]
    rfl

theorem directive?_eq_none (h : '{' ∉ cs ∨ cs.head? = some '{') : directive? cs = none := by
  unfold directive?
  rcases h with h | h
  · rw [upTo?_eq_none_iff.mpr h]
  · obtain ⟨r, rfl⟩ := List.head?_eq_some_iff.mp h
    rw [show '{' :: r = [] ++ '{' :: r from rfl, upTo?_append List.not_mem_nil]

end Directive

section Rules

variable {c : Char} {key r tag audio video rest : List Char}

@[simp] theorem ofFormat_nil : ofFormat [] = [] := by rw [ofFormat]

theorem ofFormat_char (h : c ≠ '%') : ofFormat (c :: r) = char c :: ofFormat r := by
  rw [ofFormat]
  · exact fun _ hc => absurd hc h
  · exact fun hc => absurd hc h

/-- A text without `%` is shown as it is. -/
theorem ofFormat_plain {cs : List Char} (h : '%' ∉ cs) :
    ofFormat (cs ++ r) = cs.map char ++ ofFormat r := by
  induction cs with
  | nil => rfl
  | cons c cs ih =>
    obtain ⟨hc, hcs⟩ := not_or.mp (mt List.mem_cons.mpr h)
    rw [List.cons_append, ofFormat_char (Ne.symm hc), ih hcs]
    rfl

/-- Of two `%` the first is shown and the second is read again. -/
theorem ofFormat_doubled : ofFormat ('%' :: '%' :: r) = char '%' :: ofFormat ('%' :: r) := by
  rw [ofFormat]

theorem ofFormat_single (h : r.head? ≠ some '%') :
    ofFormat ('%' :: r) = match directive? r with
      | none => stop :: ofFormat r
      | some (conditional, rest) => node conditional :: ofFormat rest := by
  rw [ofFormat]
  · split <;> simp_all
  · rintro s rfl
    exact h rfl

/-- A `%` that begins no directive shows nothing. -/
theorem ofFormat_dropped (h : r.head? ≠ some '%') (hr : '{' ∉ r ∨ r.head? = some '{') :
    ofFormat ('%' :: r) = stop :: ofFormat r := by
  rw [ofFormat_single h, directive?_eq_none hr]

/-- A directive is read up to the end of its third group. -/
theorem ofFormat_directive (hne : key ≠ []) (hkey : '{' ∉ key) (hhead : key.head? ≠ some '%')
    (h : ThreeGroups ('{' :: r) tag audio video rest) :
    ofFormat ('%' :: (key ++ '{' :: r)) =
      node (Node.ofGroups key tag audio video) :: ofFormat rest := by
  rw [ofFormat_single (by rwa [List.head?_append_of_ne_nil _ hne]), directive?_key hne hkey h]

/-- A directive whose groups are closed ends with the third one, even if a brace follows. -/
theorem ofFormat_closed (hne : key ≠ []) (hkey : '{' ∉ key) (hhead : key.head? ≠ some '%')
    (htag : '}' ∉ tag) (haudio : '}' ∉ audio) (hvideo : '}' ∉ video) :
    ofFormat (closedDirective key tag audio video ++ rest) =
      node (Node.ofGroups key tag audio video) :: ofFormat rest := by
  rw [closedDirective_append,
    ofFormat_directive hne hkey hhead (.closed htag haudio hvideo rest)]

end Rules

/-- Induction over formats, with one case for each rule. -/
@[elab_as_elim]
theorem format_induction {motive : List Char → Prop} (cs : List Char) (nil : motive [])
    (char : ∀ c r, c ≠ '%' → motive r → motive (c :: r))
    (doubled : ∀ r, motive ('%' :: r) → motive ('%' :: '%' :: r))
    (dropped : ∀ r, r.head? ≠ some '%' → ('{' ∉ r ∨ r.head? = some '{') → motive r →
      motive ('%' :: r))
    (directive : ∀ key r tag audio video rest, key ≠ [] → '{' ∉ key → key.head? ≠ some '%' →
      ThreeGroups ('{' :: r) tag audio video rest → motive rest →
      motive ('%' :: (key ++ '{' :: r))) : motive cs := by
  fun_induction ofFormat cs with
  | case1 => exact nil
  | case2 r ih => exact doubled r ih
  | case3 r hr hnone ih =>
    rcases exists_key_or r with ⟨key, s, hne, hkey, rfl⟩ | hno
    · obtain ⟨tag, audio, video, rest, hgroups⟩ := exists_threeGroups ('{' :: s)
      rw [directive?_key hne hkey hgroups] at hnone
      cases hnone
    · exact dropped r (head?_ne_of_forall hr) hno ih
  | case4 r hr node rest hsome _ ih =>
    rcases exists_key_or r with ⟨key, s, hne, hkey, rfl⟩ | hno
    · obtain ⟨tag, audio, video, _, hgroups⟩ := exists_threeGroups ('{' :: s)
      rw [directive?_key hne hkey hgroups] at hsome
      cases hsome
      have hhead := head?_ne_of_forall hr
      rw [List.head?_append_of_ne_nil _ hne] at hhead
      exact directive key s tag audio video rest hne hkey hhead hgroups ih
    · rw [directive?_eq_none hno] at hsome
      cases hsome
  | case5 c r _ hc ih => exact char c r (fun h => hc h) ih

end Piece

section Texts

variable {pending : List Char} {pieces : List Piece}

theorem pendingText_of_ne_nil (h : pending ≠ []) :
    pendingText pending = [.text (String.ofList pending.reverse)] := by
  cases pending with
  | nil => contradiction
  | cons => rfl

theorem mem_pendingText {node : Node} (h : node ∈ pendingText pending) :
    pending ≠ [] ∧ node = .text (String.ofList pending.reverse) := by
  cases pending with
  | nil => cases h
  | cons => exact ⟨List.cons_ne_nil _ _, List.mem_singleton.mp h⟩

/-- The node is one of the pieces, or the text of a run of characters among them. -/
def Node.ComesFrom (node : Node) (pieces : List Piece) : Prop :=
  .node node ∈ pieces ∨ ∃ t, node = .text t ∧ t ≠ "" ∧ t.toList.map Piece.char <:+: pieces

theorem Node.ComesFrom.append_left {node : Node} (h : node.ComesFrom pieces)
    (before : List Piece) : node.ComesFrom (before ++ pieces) := by
  rcases h with h | ⟨t, rfl, ht, hrun⟩
  · exact .inl (List.mem_append_right _ h)
  · exact .inr ⟨t, rfl, ht, hrun.trans (List.suffix_append _ _).isInfix⟩

theorem Node.ComesFrom.of_pendingText {node : Node} (h : node ∈ pendingText pending)
    (after : List Piece) : node.ComesFrom (pending.reverse.map .char ++ after) := by
  obtain ⟨hne, rfl⟩ := mem_pendingText h
  refine .inr ⟨_, rfl, by simpa using hne, ?_⟩
  rw [String.toList_ofList]
  exact (List.prefix_append _ _).isInfix

theorem mem_nodesOfPieces {node : Node} (h : node ∈ nodesOfPieces pending pieces) :
    node.ComesFrom (pending.reverse.map .char ++ pieces) := by
  fun_induction nodesOfPieces pending pieces with
  | case1 pending => exact .of_pendingText h []
  | case2 pending c rest ih => simpa using ih h
  | case3 pending rest ih =>
    rcases List.mem_append.mp h with h | h
    · exact .of_pendingText h _
    · exact ((ih h).append_left [.stop]).append_left _
  | case4 pending inner rest ih =>
    rcases List.mem_append.mp h with h | h
    · exact .of_pendingText h _
    rcases List.mem_cons.mp h with rfl | h
    · exact .append_left (.inl List.mem_cons_self) _
    · exact ((ih h).append_left [.node inner]).append_left _

end Texts

end PlayerText.Display
