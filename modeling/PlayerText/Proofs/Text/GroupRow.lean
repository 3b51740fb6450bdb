import Mathlib.Data.List.OfFn
import PlayerText.Proofs.Text.Group

/-!
# Groups in a row

A directive reads a fixed number of groups, whatever stands there. As long as groups are closed and
follow each other directly, each is the text between its braces. The first one that is not closed
takes all the text that is left, and where no brace opens nothing is read any more.

* `closedGroups`, `ClosedRow`, `LongestRow`: the closed groups at the beginning of a text.
* `LongestRow.unique`, `exists_longestRow`: every text has exactly one longest row of them.
* `groupList`: what the reader gives, as a list.
* `groupList_add`: some groups and then some more are all of them at once.
* `groupList_closedGroups`, `groupList_missing`, `groupList_unclosed`: what is read of a row, where
  no brace opens, and of a group that is not closed.
* `groups_exact`: what the groups of a directive are, and where the text behind them begins.
-/

namespace PlayerText.Text

/-- Groups as they are written with their braces, one directly after the other. -/
def closedGroups (row : List (List Char)) : List Char := row.flatMap fun g => '{' :: (g ++ ['}'])

/-- A text begins with the closed groups of a row, at most `n` of them, and `r` follows. -/
structure ClosedRow (n : Nat) (cs : List Char) (row : List (List Char)) (r : List Char) : Prop where
  text : cs = closedGroups row ++ r
  closed : ∀ g ∈ row, '}' ∉ g
  length_le : row.length ≤ n

/-- No row of closed groups at the beginning of the text has more groups than this one. -/
structure LongestRow (n : Nat) (cs : List Char) (row : List (List Char)) (r : List Char) : Prop
    extends ClosedRow n cs row r where
  longest : ∀ row' r', ClosedRow n cs row' r' → row'.length ≤ row.length

/-! ## The longest row -/

section Rows

variable {n : Nat} {cs g r r' : List Char} {row row' : List (List Char)}

theorem closedGroups_cons_append (g : List Char) (row : List (List Char)) (r : List Char) :
    closedGroups (g :: row) ++ r = '{' :: (g ++ '}' :: (closedGroups row ++ r)) := by
  simp [closedGroups]

theorem ClosedRow.nil (n : Nat) (cs : List Char) : ClosedRow n cs [] cs :=
  ⟨rfl, fun _ hg => (nomatch hg), Nat.zero_le n⟩

theorem ClosedRow.cons {s : List Char} (hg : '}' ∉ g) (h : ClosedRow n s row r) :
    ClosedRow (n + 1) ('{' :: (g ++ '}' :: s)) (g :: row) r where
  text := by rw [closedGroups_cons_append, ← h.text]
  closed := List.forall_mem_cons.mpr ⟨hg, h.closed⟩
  length_le := Nat.succ_le_succ h.length_le

/-- The first group of a row is the group that is read first. -/
theorem ClosedRow.exists_tail (h : ClosedRow n cs (g :: row) r) :
    ∃ m s, n = m + 1 ∧ cs = '{' :: (g ++ '}' :: s) ∧ '}' ∉ g ∧ ClosedRow m s row r := by
  obtain ⟨htext, hclosed, hlength⟩ := h
  obtain ⟨hg, hrow⟩ := List.forall_mem_cons.mp hclosed
  obtain ⟨m, rfl⟩ := Nat.exists_eq_add_of_lt (Nat.lt_of_lt_of_le (Nat.zero_lt_succ _) hlength)
  refine ⟨m, closedGroups row ++ r, by omega, ?_, hg, rfl, hrow, ?_⟩
  · rw [htext, closedGroups_cons_append]
  · rw [List.length_cons] at hlength
    omega

/-- A first closing brace is in one place only. -/
theorem closed_inj {g' s s' : List Char} (hg : '}' ∉ g) (hg' : '}' ∉ g')
    (h : '{' :: (g ++ '}' :: s) = '{' :: (g' ++ '}' :: s')) : g = g' ∧ s = s' := by
  have hread : (g, s) = (g', s') := by rw [← group_closed hg, ← group_closed hg', h]
  exact Prod.mk.inj hread

/-- Rows of one length at the beginning of one text are the same. -/
theorem ClosedRow.unique (h : ClosedRow n cs row r) (h' : ClosedRow n cs row' r')
    (hlength : row.length = row'.length) : row = row' ∧ r = r' := by
  induction row generalizing n cs row' with
  | nil =>
    obtain rfl := List.length_eq_zero_iff.mp hlength.symm
    exact ⟨rfl, h.text.symm.trans h'.text⟩
  | cons g row ih =>
    cases row' with
    | nil => cases hlength
    | cons g' row' =>
      obtain ⟨m, s, rfl, rfl, hg, hrow⟩ := h.exists_tail
      obtain ⟨_, s', heq, htext, hg', hrow'⟩ := h'.exists_tail
      cases heq
      obtain ⟨rfl, rfl⟩ := closed_inj hg hg' htext
      obtain ⟨rfl, hr⟩ := ih hrow hrow' (Nat.succ.inj hlength)
      exact ⟨rfl, hr⟩

theorem LongestRow.unique (h : LongestRow n cs row r) (h' : LongestRow n cs row' r') :
    row = row' ∧ r = r' :=
  h.toClosedRow.unique h'.toClosedRow
    (Nat.le_antisymm (h'.longest _ _ h.toClosedRow) (h.longest _ _ h'.toClosedRow))

/-- A text that does not begin with a closed group begins with no row of them. -/
theorem longestRow_nil (h : ∀ g s, '}' ∉ g → cs ≠ '{' :: (g ++ '}' :: s)) :
    LongestRow n cs [] cs where
  toClosedRow := .nil n cs
  longest row r hrow := by
    cases row with
    | nil => exact Nat.le_refl _
    | cons g row =>
      obtain ⟨m, s, -, hcs, hg, -⟩ := hrow.exists_tail
      exact absurd hcs (h g s hg)

theorem LongestRow.cons {s : List Char} (hg : '}' ∉ g) (h : LongestRow n s row r) :
    LongestRow (n + 1) ('{' :: (g ++ '}' :: s)) (g :: row) r where
  toClosedRow := .cons hg h.toClosedRow
  longest row' r' hrow' := by
    cases row' with
    | nil => exact Nat.zero_le _
    | cons g' row' =>
      obtain ⟨m, s', heq, hcs, hg', htail⟩ := hrow'.exists_tail
      cases heq
      obtain ⟨-, rfl⟩ := closed_inj hg hg' hcs
      exact Nat.succ_le_succ (h.longest row' r' htail)

/-- Every text has a longest row of closed groups. -/
theorem exists_longestRow (n : Nat) (cs : List Char) : ∃ row r, LongestRow n cs row r := by
  induction n generalizing cs with
  | zero =>
    refine ⟨[], cs, .nil 0 cs, fun row' r' hrow' => ?_⟩
    exact hrow'.length_le
  | succ n ih =>
    by_cases h : ∃ g s, '}' ∉ g ∧ cs = '{' :: (g ++ '}' :: s)
    · obtain ⟨g, s, hg, rfl⟩ := h
      obtain ⟨row, r, hrow⟩ := ih s
      exact ⟨g :: row, r, hrow.cons hg⟩
    · exact ⟨[], cs, longestRow_nil fun g s hg hcs => h ⟨g, s, hg, hcs⟩⟩

/-- What follows the longest row is no closed group, unless there are enough groups. -/
theorem LongestRow.not_mem_of_lt {s : List Char} (h : LongestRow n cs row ('{' :: s))
    (hlt : row.length < n) : '}' ∉ s := by
  intro hmem
  obtain ⟨g, s', rfl, hg⟩ := List.eq_append_cons_of_mem hmem
  have hlonger : ClosedRow n cs (row ++ [g]) s' := by
    refine ⟨?_, ?_, by rw [List.length_append]; exact hlt⟩
    · rw [h.text]
      simp [closedGroups]
    · simpa [or_imp, forall_and] using ⟨h.closed, hg⟩
  have hle := h.longest _ _ hlonger
  rw [List.length_append, List.length_singleton] at hle
  omega

end Rows

/-! ## Reading -/

/-- The next `n` groups in their order, and what follows the last. -/
def groupList (n : Nat) (cs : List Char) : List (List Char) × List Char :=
  (List.ofFn (groups n cs).1, (groups n cs).2)

section Reading

variable {n : Nat} {cs g r : List Char}

@[simp] theorem groupList_zero (cs : List Char) : groupList 0 cs = ([], cs) := rfl

theorem groupList_succ (h : Group cs g r) :
    groupList (n + 1) cs = (g :: (groupList n r).1, (groupList n r).2) := by
  unfold groupList
  rw [groups, h.eq, List.ofFn_succ]
  rfl

/-- The first groups are read first, and the others from where they end. -/
theorem groupList_add (m k : Nat) (cs : List Char) :
    groupList (m + k) cs =
      ((groupList m cs).1 ++ (groupList k (groupList m cs).2).1,
        (groupList k (groupList m cs).2).2) := by
  induction m generalizing cs with
  | zero => rw [Nat.zero_add, groupList_zero, List.nil_append]
  | succ m ih =>
    obtain ⟨g, r, h⟩ := exists_group cs
    rw [Nat.succ_add, groupList_succ h, groupList_succ h, ih]
    rfl

/-- Where no brace opens, all groups are missing and nothing is read. -/
theorem groupList_missing (n : Nat) (h : cs.head? ≠ some '{') :
    groupList n cs = (List.replicate n [], cs) := by
  induction n with
  | zero => rfl
  | succ n ih => rw [groupList_succ (.missing h), ih, List.replicate_succ]

/-- A group that is not closed is all that is left, and the groups behind it are missing. -/
theorem groupList_unclosed (n : Nat) (h : '}' ∉ g) :
    groupList (n + 1) ('{' :: g) = (g :: List.replicate n [], []) := by
  rw [groupList_succ (.unclosed h), groupList_missing n (by simp)]

/-- Of a row of closed groups each is read, and the text behind it is left. -/
theorem groupList_closedGroups {row : List (List Char)} (h : ∀ g ∈ row, '}' ∉ g) (r : List Char) :
    groupList row.length (closedGroups row ++ r) = (row, r) := by
  induction row with
  | nil => rfl
  | cons g row ih =>
    obtain ⟨hg, hrow⟩ := List.forall_mem_cons.mp h
    rw [closedGroups_cons_append, List.length_cons, groupList_succ (.closed hg), ih hrow]

/-- Behind a row of closed groups the others are read from the text that follows it. -/
theorem ClosedRow.groupList_eq {row : List (List Char)} (h : ClosedRow n cs row r) :
    groupList n cs =
      (row ++ (groupList (n - row.length) r).1, (groupList (n - row.length) r).2) := by
  have hn : n = row.length + (n - row.length) := (Nat.add_sub_cancel' h.length_le).symm
  conv_lhs => rw [hn, groupList_add, h.text, groupList_closedGroups h.closed]

/-- No group holds a closing brace. -/
theorem not_mem_of_mem_groupList (n : Nat) (cs : List Char) :
    ∀ g ∈ (groupList n cs).1, '}' ∉ g := by
  induction n generalizing cs with
  | zero => exact fun _ hg => (nomatch hg)
  | succ n ih =>
    obtain ⟨first, r, h⟩ := exists_group cs
    rw [groupList_succ h]
    exact List.forall_mem_cons.mpr ⟨h.not_mem, ih r⟩

/-- From a missing group on all groups are missing, and nothing more is read. -/
theorem groupList_of_missing {i : Nat} (hi : i ≤ n) (h : (groupList i cs).2.head? ≠ some '{') :
    groupList n cs = ((groupList i cs).1 ++ List.replicate (n - i) [], (groupList i cs).2) := by
  have hn : n = i + (n - i) := (Nat.add_sub_cancel' hi).symm
  conv_lhs => rw [hn, groupList_add, groupList_missing _ h]

end Reading

/-- What the `n` groups of a directive are. Of a text that begins with closed groups these are read
first, `n` of them at most. If there are fewer and another brace opens, the next group is all that
is left and the others are empty. Otherwise the others are empty and reading stops right behind the
closed ones. No group holds a closing brace, and behind a missing group nothing is read. -/
theorem groups_exact (n : Nat) (cs : List Char) :
    ∃ row r, LongestRow n cs row r ∧ (∀ row' r', LongestRow n cs row' r' → row' = row ∧ r' = r) ∧
      (∀ s, row.length < n → r = '{' :: s →
        '}' ∉ s ∧
          List.ofFn (groups n cs).1 = row ++ s :: List.replicate (n - row.length - 1) [] ∧
          (groups n cs).2 = []) ∧
      (row.length = n ∨ r.head? ≠ some '{' →
        List.ofFn (groups n cs).1 = row ++ List.replicate (n - row.length) [] ∧
          (groups n cs).2 = r) ∧
      (∀ i, '}' ∉ (groups n cs).1 i) ∧
      ∀ i j : Fin n, (groups i cs).2.head? ≠ some '{' → i ≤ j →
        (groups n cs).1 j = [] ∧ (groups n cs).2 = (groups i cs).2 := by
  obtain ⟨row, r, hrow⟩ := exists_longestRow n cs
  have hread := hrow.groupList_eq
  refine ⟨row, r, hrow, fun row' r' h' => h'.unique hrow, fun s hlt hr => ?_, fun hstop => ?_,
    fun i => ?_, fun i j hmissing hij => ?_⟩
  · subst hr
    have hs := hrow.not_mem_of_lt hlt
    obtain ⟨k, hk⟩ := Nat.exists_eq_succ_of_ne_zero (Nat.sub_ne_zero_of_lt hlt)
    rw [hk, groupList_unclosed k hs] at hread
    obtain ⟨hgroups, hrest⟩ := Prod.mk.inj hread
    exact ⟨hs, by rw [hgroups, hk, Nat.succ_sub_one], hrest⟩
  · have hothers : groupList (n - row.length) r = (List.replicate (n - row.length) [], r) := by
      rcases hstop with hfull | hhead
      · rw [hfull, Nat.sub_self]
        rfl
      · exact groupList_missing _ hhead
    rw [hothers] at hread
    exact Prod.mk.inj hread
  · exact not_mem_of_mem_groupList n cs _ (List.mem_ofFn.mpr ⟨i, rfl⟩)
  · obtain ⟨hgroups, hrest⟩ := Prod.mk.inj (groupList_of_missing i.isLt.le hmissing)
    refine ⟨?_, hrest⟩
    have hj := List.getElem_ofFn (f := (groups n cs).1) (i := j) (by simp)
    have hbehind : (groupList i cs).1.length ≤ j := by simpa [groupList] using hij
    rw [← hj, List.getElem_of_eq hgroups, List.getElem_append_right hbehind,
      List.getElem_replicate]

/-- Two closed groups, and behind a blank a third that is not read. -/
example : groupList 3 "\x7ba\x7d\x7bb\x7bc\x7d \x7bd\x7d".toList =
    (["a".toList, "b\x7bc".toList, []], " \x7bd\x7d".toList) := by decide

end PlayerText.Text
