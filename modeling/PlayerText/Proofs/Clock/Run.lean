import Mathlib.Data.List.TakeWhile
import PlayerText.Proofs.Clock.Token

/-!
# Runs of one letter

How a run of letters is split into tokens, however long it is: into fields as wide as the part has
them, and what is left into fields that are less wide. A single `y` that is left is copied.

* `longest_field`, `longest_y`: a field is the longest token where no wider one fits.
* `Part.split`: the tokens of a run by its length.
* `tokenization_run`, `tokenization_takeWhile`: the tokens of a run, and those of what follows it.
-/

namespace PlayerText.Clock

section Runs

variable {p : Part} {n k : Nat} {rest : List Char} {toks : List Token}

theorem le_of_replicate_append {c : Char} (h : List.replicate k c <+: List.replicate n c ++ rest)
    (hrest : rest.head? ≠ some c) : k ≤ n := by
  by_contra hlt
  obtain ⟨d, rfl⟩ := Nat.exists_eq_add_of_lt (Nat.not_le.mp hlt)
  rw [Nat.add_assoc, List.replicate_add, List.prefix_append_right_inj] at h
  obtain ⟨s, rfl⟩ := h
  exact hrest rfl

/-- A field is the longest token if the run is too short for all wider fields. -/
theorem longest_field {f : DateField} (hrest : rest.head? ≠ some f.part.letter)
    (hwidest : ∀ w ∈ f.part.widths, w ≤ f.width + k → w ≤ f.width) :
    (Token.field f).Longest (List.replicate k f.part.letter ++ rest) := by
  intro other hother
  have hfirst : other.first = f.part.letter := by
    obtain ⟨s, hs⟩ := hother
    exact Token.first_eq_of_append hs
  rcases Token.eq_of_first_letter hfirst with ⟨⟨part, width, hmem⟩, rfl, rfl⟩ | ⟨plain, rfl⟩
  · simp only [Token.spelling, List.length_replicate] at hother ⊢
    rw [← List.append_assoc, ← List.replicate_add] at hother
    exact hwidest width hmem (le_of_replicate_append hother hrest)
  · simp only [Token.spelling, List.length_replicate, List.length_singleton]
    exact Part.pos_of_mem_widths f.width_mem

/-- A single `y` is copied. -/
theorem longest_y (plain : 'y' ∉ marks) (hrest : rest.head? ≠ some 'y') :
    (Token.char 'y' plain).Longest rest := by
  intro other hother
  have hfirst : other.first = Part.year.letter := by
    obtain ⟨s, hs⟩ := hother
    exact Token.first_eq_of_append hs
  rcases Token.eq_of_first_letter hfirst with ⟨⟨part, width, hmem⟩, rfl, rfl⟩ | ⟨_, rfl⟩
  · have hone : width ≤ 1 := le_of_replicate_append (n := 1) hother hrest
    simp only [Part.widths, List.mem_cons, List.not_mem_nil, or_false] at hmem
    omega
  · exact Nat.le_refl _

/-- The width of the widest field of a part. -/
def Part.widest : Part → Nat
  | .day | .month | .year => 4
  | .millis => 3
  | .zone => 1
  | .hour | .hour24 | .minute | .second => 2

theorem Part.widest_mem (p : Part) : p.widest ∈ p.widths := by cases p <;> decide

theorem Part.le_widest {w : Nat} (h : w ∈ p.widths) : w ≤ p.widest := by
  cases p <;> simp [widths, widest] at h ⊢ <;> omega

/-- The tokens of a run that is too short for the widest field. -/
def Part.short (p : Part) (n : Nat) : List Token :=
  if h : n ∈ p.widths then [.field ⟨p, n, h⟩]
  else match p, n with
    | .year, 1 => [.char 'y' (by decide)]
    | .year, 3 => [.field ⟨.year, 2, by decide⟩, .char 'y' (by decide)]
    | .millis, 2 => [.field ⟨.millis, 1, by decide⟩, .field ⟨.millis, 1, by decide⟩]
    | _, _ => []

/-- The tokens of a run: as many of the widest fields as there are letters for, and then those of
the letters that are left. -/
def Part.split (p : Part) (n : Nat) : List Token :=
  List.replicate (n / p.widest) (.field ⟨p, p.widest, p.widest_mem⟩) ++ p.short (n % p.widest)

/-- A field and what the rest of the run is split into. -/
theorem tokenization_field {f : DateField} (hrest : rest.head? ≠ some f.part.letter)
    (hwidest : ∀ w ∈ f.part.widths, w ≤ f.width + k → w ≤ f.width)
    (h : Tokenization (List.replicate k f.part.letter ++ rest) toks) :
    Tokenization (List.replicate (f.width + k) f.part.letter ++ rest) (.field f :: toks) := by
  rw [List.replicate_add, List.append_assoc]
  exact .cons (longest_field hrest hwidest) h

theorem tokenization_short (hn : n < p.widest) (hrest : rest.head? ≠ some p.letter)
    (h : Tokenization rest toks) :
    Tokenization (List.replicate n p.letter ++ rest) (p.short n ++ toks) := by
  by_cases hmem : n ∈ p.widths
  · rw [Part.short, dif_pos hmem]
    exact tokenization_field (f := ⟨p, n, hmem⟩) (k := 0) hrest (fun _ _ hw => hw) h
  · have hcases : n = 0 ∨ p = .year ∧ (n = 1 ∨ n = 3) ∨ p = .millis ∧ n = 2 := by
      cases p <;> simp [Part.widths, Part.widest] at hn hmem ⊢ <;> omega
    rcases hcases with rfl | ⟨rfl, rfl | rfl⟩ | ⟨rfl, rfl⟩
    · cases p <;> exact h
    · exact .cons (longest_y _ hrest) h
    · have hlast := Tokenization.cons (longest_y (by decide) hrest) h
      exact tokenization_field (f := ⟨.year, 2, by decide⟩) (k := 1) hrest (by decide) hlast
    · have hlast := tokenization_field (f := ⟨.millis, 1, by decide⟩) (k := 0) hrest (by decide) h
      exact tokenization_field (f := ⟨.millis, 1, by decide⟩) (k := 1) hrest (by decide) hlast

/-- A run of one letter is split into its widest fields, and what is left into fewer letters. -/
theorem tokenization_run (p : Part) (n : Nat) (hrest : rest.head? ≠ some p.letter)
    (h : Tokenization rest toks) :
    Tokenization (List.replicate n p.letter ++ rest) (p.split n ++ toks) := by
  have hpos : 0 < p.widest := Part.pos_of_mem_widths p.widest_mem
  obtain ⟨q, r, hr, rfl⟩ : ∃ q r, r < p.widest ∧ n = p.widest * q + r :=
    ⟨n / p.widest, n % p.widest, Nat.mod_lt _ hpos, (Nat.div_add_mod _ _).symm⟩
  have hsplit : p.split (p.widest * q + r) =
      List.replicate q (.field ⟨p, p.widest, p.widest_mem⟩) ++ p.short r := by
    rw [Part.split, Nat.mul_add_div hpos, Nat.div_eq_of_lt hr, Nat.mul_add_mod,
      Nat.mod_eq_of_lt hr, Nat.add_zero]
  rw [hsplit, List.append_assoc]
  clear hsplit
  induction q with
  | zero => simpa using tokenization_short hr hrest h
  | succ q ih =>
    have hlonger : p.widest * (q + 1) + r = p.widest + (p.widest * q + r) := by
      rw [Nat.mul_succ]
      omega
    rw [hlonger]
    exact tokenization_field (f := ⟨p, p.widest, p.widest_mem⟩) hrest
      (fun _ hw _ => Part.le_widest hw) ih

/-- The tokens of a run at the front of a pattern come first, and then those of what follows the
run. -/
theorem tokenization_takeWhile (p : Part) (cs : List Char) (toks : List Token) :
    Tokenization cs (p.split (cs.takeWhile (· == p.letter)).length ++ toks) ↔
      Tokenization (cs.dropWhile (· == p.letter)) toks := by
  have hcs : cs = List.replicate (cs.takeWhile (· == p.letter)).length p.letter ++
      cs.dropWhile (· == p.letter) := by
    rw [← List.eq_replicate_of_mem fun d hd => by simpa using List.mem_takeWhile_imp hd,
      List.takeWhile_append_dropWhile]
  have hrest : (cs.dropWhile (· == p.letter)).head? ≠ some p.letter := by
    intro hhead
    simpa [hhead] using List.head?_dropWhile_not (· == p.letter) cs
  have hrun {toks : List Token} (h : Tokenization (cs.dropWhile (· == p.letter)) toks) :
      Tokenization cs (p.split (cs.takeWhile (· == p.letter)).length ++ toks) := by
    have hsplit := tokenization_run p (cs.takeWhile (· == p.letter)).length hrest h
    rwa [← hcs] at hsplit
  refine ⟨fun h => ?_, hrun⟩
  obtain ⟨others, hothers⟩ := exists_tokenization (cs.dropWhile (· == p.letter))
  obtain rfl : toks = others := List.append_cancel_left ((hrun hothers).unique h)
  exact hothers

end Runs

/-- Five `d`, three and seven `y`, four and two `z`. -/
example :
    Part.day.split 5 = [.field ⟨.day, 4, by decide⟩, .field ⟨.day, 1, by decide⟩] ∧
    Part.year.split 3 = [.field ⟨.year, 2, by decide⟩, .char 'y' (by decide)] ∧
    Part.year.split 7 =
      [.field ⟨.year, 4, by decide⟩, .field ⟨.year, 2, by decide⟩, .char 'y' (by decide)] ∧
    Part.millis.split 4 = [.field ⟨.millis, 3, by decide⟩, .field ⟨.millis, 1, by decide⟩] ∧
    Part.millis.split 2 = [.field ⟨.millis, 1, by decide⟩, .field ⟨.millis, 1, by decide⟩] := by
  decide

end PlayerText.Clock
