import Mathlib.Data.List.SplitBy
import PlayerText.Proofs.Display.Interpreter

/-!
# Percent signs without braces

A format without a `{` has no directives, and so a `%` is either shown or lost. In a run of `%` each
one that has another behind it is shown. The last one looks for the key of a directive, finds no
brace up to the end of the format, and shows nothing.

* `shortened`: a text in which every maximal run of `%` has lost one `%`.
* `run_induction`: induction over texts, a run of one character at a time.
* `splitBy_run`, `shortened_run`: the first run of a text is taken whole.
* `interpret_plain`, `interpret_percents`, `interpret_run`: what a format shows of a run.
* `evaluate_compile_of_no_brace`: a format without a `{` shows itself with its runs of `%` shortened,
  whatever the item is.
-/

namespace PlayerText.Display

/-- A run of `%` without one of them; any other run as it is. -/
def shortenRun (run : List Char) : List Char := if '%' ∈ run then run.tail else run

/-- A text in which every maximal run of `%` is one shorter. -/
def shortened (cs : List Char) : List Char := (cs.splitBy (· == ·)).flatMap shortenRun

section Runs

variable {c : Char} {rest : List Char}

/-- A text begins with a run of its first character. -/
theorem exists_run (c : Char) (cs : List Char) :
    ∃ n rest, c :: cs = List.replicate (n + 1) c ++ rest ∧ rest.head? ≠ some c := by
  induction cs with
  | nil => exact ⟨0, [], rfl, by simp⟩
  | cons d cs ih =>
    by_cases hd : d = c
    · subst hd
      obtain ⟨n, rest, hrun, hrest⟩ := ih
      exact ⟨n + 1, rest, by rw [hrun]; rfl, hrest⟩
    · exact ⟨0, d :: cs, rfl, by simpa using hd⟩

/-- Induction over texts, a maximal run of one character at a time. -/
@[elab_as_elim]
theorem run_induction {motive : List Char → Prop} (cs : List Char) (nil : motive [])
    (run : ∀ c n rest, rest.head? ≠ some c → motive rest →
      motive (List.replicate (n + 1) c ++ rest)) : motive cs := by
  by_cases h : cs = []
  · exact h ▸ nil
  · obtain ⟨c, r, hr⟩ := List.exists_cons_of_ne_nil h
    obtain ⟨n, rest, hrun, hrest⟩ := exists_run c r
    have hcs : cs = List.replicate (n + 1) c ++ rest := hr.trans hrun
    have hshorter : rest.length < cs.length := by
      rw [hcs, List.length_append, List.length_replicate]
      omega
    exact hcs ▸ run c n rest hrest (run_induction rest nil run)
termination_by cs.length

/-- The first run of a text is one of its maximal runs. -/
theorem splitBy_run (n : Nat) (hrest : rest.head? ≠ some c) :
    (List.replicate (n + 1) c ++ rest).splitBy (· == ·) =
      List.replicate (n + 1) c :: rest.splitBy (· == ·) := by
  have hsame : (List.replicate (n + 1) c).IsChain fun a b => (a == b) = true :=
    List.isChain_replicate_of_rel (n + 1) (by simp)
  have hborder : ∀ a ∈ (List.replicate (n + 1) c).getLast?, ∀ b ∈ rest.head?,
      (a == b) = false := by
    intro a ha b hb
    obtain rfl : a = c := List.eq_of_mem_replicate (List.mem_of_mem_getLast? ha)
    exact beq_false_of_ne fun hab => hrest (hab ▸ hb)
  rw [List.splitBy_append hborder, List.splitBy_of_isChain (by simp) hsame]
  rfl

theorem shortened_run (n : Nat) (hrest : rest.head? ≠ some c) :
    shortened (List.replicate (n + 1) c ++ rest) =
      shortenRun (List.replicate (n + 1) c) ++ shortened rest := by
  rw [shortened, splitBy_run n hrest, List.flatMap_cons]
  rfl

theorem shortenRun_percents (n : Nat) :
    shortenRun (List.replicate (n + 1) '%') = List.replicate n '%' := by
  rw [shortenRun, if_pos (by simp)]
  rfl

theorem shortenRun_plain {run : List Char} (h : '%' ∉ run) : shortenRun run = run := if_neg h

end Runs

section Interpreting

variable {metadata : Metadata} {displayName : String} {medium : Medium} {c : Char}
  {rest : List Char}

/-- A text without `%` is shown as it is. -/
theorem interpret_plain {cs : List Char} (h : '%' ∉ cs) :
    interpret metadata displayName medium (cs ++ rest) =
      cs ++ interpret metadata displayName medium rest := by
  induction cs with
  | nil => rfl
  | cons c cs ih =>
    obtain ⟨hc, hcs⟩ := not_or.mp (mt List.mem_cons.mpr h)
    rw [List.cons_append, interpret_char (Ne.symm hc), ih hcs]
    rfl

/-- Of a run of `%` the last one is lost. -/
theorem interpret_percents (n : Nat) (hrest : rest.head? ≠ some '%') (hbrace : '{' ∉ rest) :
    interpret metadata displayName medium (List.replicate (n + 1) '%' ++ rest) =
      List.replicate n '%' ++ interpret metadata displayName medium rest := by
  induction n with
  | zero => exact interpret_dropped hrest (.inl hbrace)
  | succ n ih =>
    have hdoubled : List.replicate (n + 1 + 1) '%' ++ rest =
        '%' :: '%' :: (List.replicate n '%' ++ rest) := rfl
    rw [hdoubled, interpret_doubled]
    exact congrArg (List.cons '%') ih

theorem interpret_run (n : Nat) (hrest : rest.head? ≠ some c) (hbrace : '{' ∉ rest) :
    interpret metadata displayName medium (List.replicate (n + 1) c ++ rest) =
      shortenRun (List.replicate (n + 1) c) ++ interpret metadata displayName medium rest := by
  by_cases hc : c = '%'
  · subst hc
    rw [interpret_percents n hrest hbrace, shortenRun_percents]
  · have hplain : '%' ∉ List.replicate (n + 1) c := fun h => hc (List.eq_of_mem_replicate h).symm
    rw [interpret_plain hplain, shortenRun_plain hplain]

/-- Without a `{` every run of `%` loses one, and all else is shown as it is. -/
theorem interpret_eq_shortened {cs : List Char} (hbrace : '{' ∉ cs) :
    interpret metadata displayName medium cs = shortened cs := by
  induction cs using run_induction with
  | nil => exact interpret_nil
  | run c n rest hrest ih =>
    have hbehind : '{' ∉ rest := fun h => hbrace (List.mem_append_right _ h)
    rw [interpret_run n hrest hbehind, shortened_run n hrest, ih hbehind]

end Interpreting

/-- A format without a `{` shows itself with every maximal run of `%` one shorter, of every item with
metadata and whatever the metadata are. -/
theorem evaluate_compile_of_no_brace (format displayName : String) (metadata : Metadata)
    (medium : Medium) (h : metadata.isEmpty = false) (hbrace : '{' ∉ format.toList) :
    (Tree.compile format).evaluate metadata displayName medium =
      String.ofList (shortened format.toList) := by
  have hshown := toList_render_compile ⟨metadata, displayName, medium⟩ format
  rw [interpret_eq_shortened hbrace] at hshown
  rw [Tree.evaluate_eq_render h, ← hshown, String.ofList_toList]

/-- Runs in front of a letter and of a closing brace, and one at the end of the format. -/
theorem evaluate_compile_of_no_brace_percents :
    let metadata := Metadata.empty.set "artist" "Band"
    let format := "50% off, 100%% sure, %artist\x7d%%%"
    (metadata.isEmpty = false ∧ '{' ∉ format.toList) ∧
      (Tree.compile format).evaluate metadata "song.mp3" .audio =
        String.ofList (shortened format.toList) ∧
      shortened format.toList = "50 off, 100% sure, artist\x7d%%".toList := by
  have h : (Metadata.empty.set "artist" "Band").isEmpty = false := Metadata.isEmpty_set _ _ _
  have hbrace : '{' ∉ "50% off, 100%% sure, %artist\x7d%%%".toList := by decide
  exact ⟨⟨h, hbrace⟩, evaluate_compile_of_no_brace _ _ _ _ h hbrace, by decide +kernel⟩

end PlayerText.Display
