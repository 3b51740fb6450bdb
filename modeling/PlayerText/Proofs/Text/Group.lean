import Mathlib.Data.List.Basic
import Mathlib.Data.List.TakeWhile
import PlayerText.Text.Group

/-!
# What a group is

`Group cs g r`: the group that is read next in the text `cs` is `g`, and `r` follows it. The rules
say it by the shape of the text, and the reader of `PlayerText.Text.Group` obeys them.

* `group_eq_iff`: the reader finds exactly the group that there is.
* `Group.not_mem`: no group holds a closing brace.
* `Group.length_le`, `Group.length_le_or`, `ThreeGroups.length_le`: how much of a text is read.
* `nextGroup`, `nextGroup_eq_group`: groups by the places of their braces.
* `ThreeGroups`: the groups of a directive that has three.
* `upTo?_append`, `upTo?_eq_none_iff`: where a search for a character stops.
-/

namespace PlayerText.Text

/-- The group read next in a text, and what follows it. -/
inductive Group : List Char → List Char → List Char → Prop where
  /-- A group ends at the first closing brace. -/
  | closed {g r : List Char} : '}' ∉ g → Group ('{' :: (g ++ '}' :: r)) g r
  /-- Without a closing brace it runs to the end. -/
  | unclosed {g : List Char} : '}' ∉ g → Group ('{' :: g) g []
  /-- Where no brace opens, the group is empty and nothing is read. -/
  | missing {cs : List Char} : cs.head? ≠ some '{' → Group cs [] cs

section Search

variable {stop : Char} {before r cs : List Char}

theorem forall_bne_of_not_mem (h : stop ∉ cs) : ∀ c ∈ cs, (c != stop) = true := fun c hc => by
  simpa using ne_of_mem_of_not_mem hc h

theorem takeWhile_of_not_mem (h : stop ∉ cs) : cs.takeWhile (· != stop) = cs :=
  List.takeWhile_eq_self_iff.mpr (forall_bne_of_not_mem h)

theorem dropWhile_of_not_mem (h : stop ∉ cs) : cs.dropWhile (· != stop) = [] :=
  List.dropWhile_eq_nil_iff.mpr (forall_bne_of_not_mem h)

theorem takeWhile_append_stop (h : stop ∉ before) :
    (before ++ stop :: r).takeWhile (· != stop) = before := by
  rw [List.takeWhile_append_of_pos (forall_bne_of_not_mem h)]
  simp

theorem dropWhile_append_stop (h : stop ∉ before) :
    (before ++ stop :: r).dropWhile (· != stop) = stop :: r := by
  rw [List.dropWhile_append_of_pos (forall_bne_of_not_mem h)]
  simp

/-- A search stops at the first occurrence. -/
theorem upTo?_append (h : stop ∉ before) :
    upTo? stop (before ++ stop :: r) = some (before, stop :: r) := by
  rw [upTo?, if_pos (by simp), takeWhile_append_stop h, dropWhile_append_stop h]

theorem upTo?_eq_none_iff : upTo? stop cs = none ↔ stop ∉ cs := by
  simp [upTo?]

end Search

section Reader

variable {cs g r : List Char}

theorem group_closed (h : '}' ∉ g) : group ('{' :: (g ++ '}' :: r)) = (g, r) := by
  rw [group, takeWhile_append_stop h, dropWhile_append_stop h, List.drop_one, List.tail_cons]

theorem group_unclosed (h : '}' ∉ g) : group ('{' :: g) = (g, []) := by
  rw [group, takeWhile_of_not_mem h, dropWhile_of_not_mem h, List.drop_nil]

theorem group_missing (h : cs.head? ≠ some '{') : group cs = ([], cs) := by
  unfold group
  split
  · exact absurd rfl h
  · rfl

/-- Every text has a next group. -/
theorem exists_group (cs : List Char) : ∃ g r, Group cs g r := by
  by_cases hopen : cs.head? = some '{'
  · obtain ⟨s, rfl⟩ := List.head?_eq_some_iff.mp hopen
    by_cases hclose : '}' ∈ s
    · obtain ⟨g, r, rfl, hg⟩ := List.eq_append_cons_of_mem hclose
      exact ⟨g, r, .closed hg⟩
    · exact ⟨s, [], .unclosed hclose⟩
  · exact ⟨[], cs, .missing hopen⟩

theorem Group.eq (h : Group cs g r) : group cs = (g, r) := by
  cases h with
  | closed hg => exact group_closed hg
  | unclosed hg => exact group_unclosed hg
  | missing hn => exact group_missing hn

/-- The reader finds exactly the group that there is. -/
theorem group_eq_iff : group cs = (g, r) ↔ Group cs g r := by
  refine ⟨fun h => ?_, Group.eq⟩
  obtain ⟨g', r', hg⟩ := exists_group cs
  rw [hg.eq] at h
  cases h
  exact hg

theorem Group.not_mem (h : Group cs g r) : '}' ∉ g := by
  cases h with
  | closed hg => exact hg
  | unclosed hg => exact hg
  | missing => exact List.not_mem_nil

/-- A group and what follows it are apart in the text. -/
theorem Group.length_le (h : Group cs g r) : g.length + r.length ≤ cs.length := by
  cases h with
  | closed => simp only [List.length_cons, List.length_append]; omega
  | unclosed => simp only [List.length_cons, List.length_nil]; omega
  | missing => simp

/-- Where a brace opens, the closing one is read with the group, or the group is all there is. -/
theorem Group.length_le_or (h : Group ('{' :: cs) g r) :
    g.length + r.length + 1 ≤ cs.length ∨ g = cs ∧ r = [] := by
  cases h with
  | closed => exact .inl (by simp only [List.length_cons, List.length_append]; omega)
  | unclosed => exact .inr ⟨rfl, rfl⟩
  | missing h => exact absurd rfl h

end Reader

/-- The group read next and what follows it, by the place of the first closing brace. Where there is
none, both cuts are at the end. -/
def nextGroup : List Char → List Char × List Char
  | '{' :: r => (r.take (r.idxOf '}'), r.drop (r.idxOf '}' + 1))
  | cs => ([], cs)

theorem length_nextGroup_le (cs : List Char) : (nextGroup cs).2.length ≤ cs.length := by
  unfold nextGroup
  split
  · simp only [List.length_drop, List.length_cons]
    omega
  · exact Nat.le_refl _

theorem nextGroup_eq_group (cs : List Char) : nextGroup cs = group cs := by
  unfold nextGroup
  split
  · next r =>
    by_cases h : '}' ∈ r
    · obtain ⟨g, s, rfl, hg⟩ := List.eq_append_cons_of_mem h
      rw [group_closed hg, List.idxOf_append_of_notMem hg, List.idxOf_cons_self]
      simp
    · rw [group_unclosed h, List.idxOf_of_notMem h]
      simp
  · next hopen =>
    refine (group_missing fun h => ?_).symm
    obtain ⟨r, rfl⟩ := List.head?_eq_some_iff.mp h
    exact hopen r rfl

/-- Three groups read one directly after the other, and what follows them. -/
inductive ThreeGroups (cs first second third r : List Char) : Prop where
  | intro {r₁ r₂ : List Char} : Group cs first r₁ → Group r₁ second r₂ → Group r₂ third r →
      ThreeGroups cs first second third r

/-- Three groups that are closed end with the third closing brace. -/
theorem ThreeGroups.closed {first second third : List Char} (hfirst : '}' ∉ first)
    (hsecond : '}' ∉ second) (hthird : '}' ∉ third) (r : List Char) :
    ThreeGroups ('{' :: (first ++ '}' :: '{' :: (second ++ '}' :: '{' :: (third ++ '}' :: r))))
      first second third r :=
  .intro (.closed hfirst) (.closed hsecond) (.closed hthird)

/-- Where a brace opens, the first closing one is read with the three groups, or nothing is left
behind them. -/
theorem ThreeGroups.length_le {cs first second third r : List Char}
    (h : ThreeGroups ('{' :: cs) first second third r) :
    first.length + second.length + third.length + r.length + 1 ≤ cs.length ∨
      first.length + second.length + third.length ≤ cs.length ∧ r = [] := by
  obtain ⟨hfirst, hsecond, hthird⟩ := h
  have htwo := hsecond.length_le
  have hthree := hthird.length_le
  rcases hfirst.length_le_or with hclosed | ⟨rfl, rfl⟩
  · exact .inl (by omega)
  · rw [List.length_nil] at htwo
    exact .inr ⟨by omega, List.length_eq_zero_iff.mp (by omega)⟩

theorem exists_threeGroups (cs : List Char) :
    ∃ first second third r, ThreeGroups cs first second third r := by
  obtain ⟨first, r₁, h₁⟩ := exists_group cs
  obtain ⟨second, r₂, h₂⟩ := exists_group r₁
  obtain ⟨third, r, h₃⟩ := exists_group r₂
  exact ⟨first, second, third, r, .intro h₁ h₂ h₃⟩

end PlayerText.Text
