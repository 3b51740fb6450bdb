/-!
# Brace groups

A format passes text to a directive in groups such as `{by #}`. Groups do not nest, a group that is
never closed runs to the end of the format, and where no brace follows the group is empty and
nothing is read.

* `upTo?`: the text before the next occurrence of a character, if it occurs.
* `group`: one group and the text after it.
* `groups n`: the next `n` groups, read one directly after the other.
* `length_group_le`, `length_groups_le`: reading groups never lengthens what is left.
-/

namespace PlayerText.Text

/-- The text before the first `stop` and the text from that `stop` on; nothing if there is no
`stop`. -/
def upTo? (stop : Char) (cs : List Char) : Option (List Char × List Char) :=
  if stop ∈ cs then some (cs.takeWhile (· != stop), cs.dropWhile (· != stop)) else none

/-- One group: the text between the braces, and what follows the closing one. -/
def group : List Char → List Char × List Char
  | '{' :: r => (r.takeWhile (· != '}'), (r.dropWhile (· != '}')).drop 1)
  | cs => ([], cs)

/-- The next `n` groups by their numbers, and what follows the last. -/
def groups : (n : Nat) → List Char → (Fin n → List Char) × List Char
  | 0, cs => (nofun, cs)
  | n + 1, cs =>
    let first := group cs
    let others := groups n first.2
    (Fin.cases first.1 others.1, others.2)

theorem length_upTo?_le {stop : Char} {cs before rest : List Char}
    (h : upTo? stop cs = some (before, rest)) : rest.length ≤ cs.length := by
  unfold upTo? at h
  split at h
  · obtain ⟨-, rfl⟩ := Prod.mk.inj (Option.some.inj h)
    exact (List.dropWhile_sublist _).length_le
  · contradiction

theorem length_group_le (cs : List Char) : (group cs).2.length ≤ cs.length := by
  unfold group
  split
  · next r =>
    have := (List.dropWhile_sublist (l := r) (· != '}')).length_le
    simp only [List.length_drop, List.length_cons]
    omega
  · exact Nat.le_refl _

theorem length_groups_le (n : Nat) (cs : List Char) : (groups n cs).2.length ≤ cs.length := by
  induction n generalizing cs with
  | zero => exact Nat.le_refl _
  | succ n ih => exact Nat.le_trans (ih _) (length_group_le cs)

end PlayerText.Text
