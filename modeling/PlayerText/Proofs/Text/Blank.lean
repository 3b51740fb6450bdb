import Mathlib.Data.List.TakeWhile
import PlayerText.Text.Blank

/-!
# Texts without the blanks at their ends

* `Trimmed`: what is left of a text without the blanks in front and at the end.
* `dropWhile_isBlank_eq_iff`: the blanks in front.
* `trim_eq_iff`: trimming gives what is left, and nothing else.
-/

namespace PlayerText.Text

/-- Of a text without the blanks in front and at the end, `core` is left. -/
structure Trimmed (cs core : List Char) : Prop where
  /-- What is taken away is blank. -/
  exists_blanks : ∃ before after, cs = before ++ (core ++ after) ∧
    (∀ c ∈ before, isBlank c = true) ∧ ∀ c ∈ after, isBlank c = true
  /-- No blank is left in front. -/
  head : ∀ c ∈ core.head?, isBlank c = false
  /-- No blank is left at the end. -/
  last : ∀ c ∈ core.getLast?, isBlank c = false

variable {cs core rest : List Char}

/-- Without the blanks in front a text begins with another character, or it is empty. -/
theorem dropWhile_isBlank_eq_iff : cs.dropWhile isBlank = rest ↔
    ∃ before, cs = before ++ rest ∧ (∀ c ∈ before, isBlank c = true) ∧
      ∀ c ∈ rest.head?, isBlank c = false := by
  constructor
  · rintro rfl
    refine ⟨cs.takeWhile isBlank, List.takeWhile_append_dropWhile.symm,
      fun c hc => List.mem_takeWhile_imp hc, fun c hc => ?_⟩
    have hhead := List.head?_dropWhile_not isBlank cs
    rw [hc] at hhead
    exact hhead
  · rintro ⟨before, rfl, hbefore, hhead⟩
    rw [List.dropWhile_append_of_pos hbefore]
    cases rest with
    | nil => rfl
    | cons c rest =>
      exact List.dropWhile_cons_of_neg (by rw [hhead c rfl]; exact Bool.false_ne_true)

theorem trim_eq_iff : trim cs = core ↔ Trimmed cs core := by
  rw [trim, List.reverse_eq_iff, dropWhile_isBlank_eq_iff]
  constructor
  · rintro ⟨after, hmid, hafter, hlast⟩
    have hfront : cs.dropWhile isBlank = core ++ after.reverse := by
      rw [← List.reverse_reverse (cs.dropWhile isBlank), hmid]
      simp
    obtain ⟨before, hcs, hbefore, hhead⟩ := dropWhile_isBlank_eq_iff.mp hfront
    refine ⟨⟨before, after.reverse, hcs, hbefore, by simpa using hafter⟩, fun c hc => ?_, ?_⟩
    · exact hhead c (by rw [List.head?_append, hc]; rfl)
    · rwa [List.head?_reverse] at hlast
  · rintro ⟨⟨before, after, rfl, hbefore, hafter⟩, hhead, hlast⟩
    rw [List.dropWhile_append_of_pos hbefore]
    cases core with
    | nil =>
      refine ⟨[], ?_, fun _ hc => (nomatch hc), fun _ hc => (nomatch hc)⟩
      rw [List.nil_append, List.dropWhile_eq_nil_iff.mpr hafter]
      rfl
    | cons c core =>
      refine ⟨after.reverse, ?_, by simpa using hafter, by rwa [List.head?_reverse]⟩
      have hkeep : (c :: core ++ after).dropWhile isBlank = c :: core ++ after :=
        List.dropWhile_cons_of_neg (by rw [hhead c rfl]; exact Bool.false_ne_true)
      rw [hkeep, List.reverse_append]

end PlayerText.Text
