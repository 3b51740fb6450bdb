/-!
# Characters that are written twice

A character that has a meaning in a format is written twice where it is meant as itself: a quote in
a quoted section of a pattern, a `%` in an inline format, a marker in a group.

* `doubled marks`: a text with each of the characters `marks` written twice.
* `doubled_mark`, `doubled_plain`: the first character of a text, by whether it is one of them;
  `doubled_self`, `doubled_of_ne` where there is only one.
* `mem_doubled`, `head?_doubled_append`: no character is added or lost, and the first stays first.
* `count_doubled`, `doubled_replicate`: the characters that are doubled, counted.
* `exists_doubled_eq`: what stands before a character that is not doubled is a doubled text itself.
-/

namespace PlayerText.Text

/-- A text in which each of the characters `marks` is written twice. -/
def doubled (marks text : List Char) : List Char :=
  text.flatMap fun c => if c ∈ marks then [c, c] else [c]

variable {marks text tail a b : List Char} {c d : Char}

@[simp] theorem doubled_nil (marks : List Char) : doubled marks [] = [] := rfl

theorem doubled_append (marks text other : List Char) :
    doubled marks (text ++ other) = doubled marks text ++ doubled marks other :=
  List.flatMap_append

theorem doubled_mark (h : c ∈ marks) :
    doubled marks (c :: text) = c :: c :: doubled marks text := by
  rw [doubled, List.flatMap_cons, if_pos h]
  rfl

theorem doubled_plain (h : c ∉ marks) : doubled marks (c :: text) = c :: doubled marks text := by
  rw [doubled, List.flatMap_cons, if_neg h]
  rfl

theorem doubled_self (c : Char) (text : List Char) :
    doubled [c] (c :: text) = c :: c :: doubled [c] text :=
  doubled_mark List.mem_cons_self

theorem doubled_of_ne (h : c ≠ d) : doubled [d] (c :: text) = c :: doubled [d] text :=
  doubled_plain fun hmem => h (List.mem_singleton.mp hmem)

theorem mem_doubled : c ∈ doubled marks text ↔ c ∈ text := by
  rw [doubled, List.mem_flatMap]
  constructor
  · rintro ⟨d, hd, hmem⟩
    obtain rfl : c = d := by split at hmem <;> simpa using hmem
    exact hd
  · intro hc
    refine ⟨c, hc, ?_⟩
    split <;> exact List.mem_cons_self

theorem head?_doubled_append (hne : text ≠ []) :
    (doubled marks text ++ tail).head? = text.head? := by
  cases text with
  | nil => contradiction
  | cons c text =>
    by_cases hc : c ∈ marks
    · rw [doubled_mark hc]; rfl
    · rw [doubled_plain hc]; rfl

/-- Each of the characters is one of two. -/
theorem count_doubled (h : c ∈ marks) (text : List Char) :
    (doubled marks text).count c = 2 * text.count c := by
  induction text with
  | nil => rfl
  | cons d text ih =>
    by_cases hd : d = c
    · subst hd
      rw [doubled_mark h, List.count_cons_self, List.count_cons_self, List.count_cons_self, ih]
      rfl
    · by_cases hmark : d ∈ marks
      · rw [doubled_mark hmark, List.count_cons_of_ne hd, List.count_cons_of_ne hd,
          List.count_cons_of_ne hd, ih]
      · rw [doubled_plain hmark, List.count_cons_of_ne hd, List.count_cons_of_ne hd, ih]

theorem doubled_replicate (c : Char) (n : Nat) :
    doubled [c] (List.replicate n c) = List.replicate (2 * n) c := by
  induction n with
  | zero => rfl
  | succ n ih => rw [List.replicate_succ, doubled_self, ih]; rfl

/-- What stands before a character that is not doubled is a doubled text itself. -/
theorem exists_doubled_eq (hc : c ∉ marks) (htail : c ∉ tail)
    (h : doubled marks text ++ tail = a ++ c :: b) : ∃ t, a = doubled marks t := by
  induction text generalizing a with
  | nil =>
    rw [doubled_nil, List.nil_append] at h
    exact absurd (h ▸ List.mem_append_right a List.mem_cons_self) htail
  | cons d text ih =>
    by_cases hd : d ∈ marks
    · have hne : d ≠ c := fun heq => hc (heq ▸ hd)
      rw [doubled_mark hd] at h
      match a with
      | [] => exact absurd (List.cons.inj h).1 hne
      | [_] => exact absurd (List.cons.inj (List.cons.inj h).2).1 hne
      | _ :: _ :: a =>
        simp only [List.cons_append, List.cons.injEq] at h
        obtain ⟨rfl, rfl, hrest⟩ := h
        obtain ⟨t, rfl⟩ := ih hrest
        exact ⟨d :: t, (doubled_mark hd).symm⟩
    · rw [doubled_plain hd] at h
      cases a with
      | nil => exact ⟨[], rfl⟩
      | cons e a =>
        simp only [List.cons_append, List.cons.injEq] at h
        obtain ⟨rfl, hrest⟩ := h
        obtain ⟨t, rfl⟩ := ih hrest
        exact ⟨d :: t, (doubled_plain hd).symm⟩

end PlayerText.Text
