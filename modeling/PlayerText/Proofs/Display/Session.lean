import PlayerText.Display.LiveTree

/-!
# Trees that are kept while formats change

A session is a live tree with the trees that were kept from it. Formats are put in force, items are
shown by the tree in force or by one that was kept, and trees are kept, in any order. The session is
told by its history alone: the tree in force is the tree of the last format, and a tree that was
kept is the tree of the format that was in force then.

* `Step`, `Session.step`, `Session.answer`, `Session.run`: what is done with a session, and what
  comes of it.
* `keeps`, `inForce`: how many trees are kept in some steps, and the format in force after them.
* `tree_run`, `kept_prefix_run`, `length_kept_run`: the tree in force, the trees that stay kept, and
  how many there are.
* `kept_run`: the tree that was kept at some moment.
* `run_follows_formats`: a session shows what its formats show.
-/

namespace PlayerText.Display

/-- Something that is done with a live tree or with the trees kept from it. -/
inductive Step where
  /-- Another format is put in force. -/
  | replace (format : String)
  /-- The tree in force is kept. -/
  | keep
  /-- An item is shown by the tree in force. -/
  | evaluate (metadata : Metadata) (displayName : String) (medium : Medium)
  /-- An item is shown by a tree that was kept. -/
  | evaluateKept (index : Nat) (metadata : Metadata) (displayName : String) (medium : Medium)

namespace Step

/-- The format that a step puts in force. -/
def format? : Step → Option String
  | replace format => some format
  | _ => none

/-- Whether a step keeps a tree. -/
def isKeep : Step → Bool
  | keep => true
  | _ => false

end Step

/-- A live tree and the trees that were kept from it, the first one first. -/
structure Session where
  /-- The tree in force. -/
  live : LiveTree
  /-- The trees that were kept. -/
  kept : List Tree

namespace Session

/-- A new session, with a format or with the empty one. -/
def start (first : Option String) : Session := ⟨first.elim default LiveTree.ofFormat, []⟩

/-- The session after a step. -/
def step (s : Session) : Step → Session
  | .replace format => { s with live := s.live.replace format }
  | .keep => { s with kept := s.kept ++ [s.live.tree] }
  | .evaluate .. | .evaluateKept .. => s

/-- The text that a step shows, if it shows one. -/
def answer (s : Session) : Step → Option String
  | .replace _ | .keep => none
  | .evaluate metadata displayName medium => some (s.live.evaluate metadata displayName medium)
  | .evaluateKept index metadata displayName medium =>
    s.kept[index]?.map fun tree => tree.evaluate metadata displayName medium

/-- The session after some steps. -/
def run (s : Session) (steps : List Step) : Session := steps.foldl step s

/-- How many trees are kept in some steps. A tree that is kept next has this number as its index. -/
def keeps (steps : List Step) : Nat := steps.countP Step.isKeep

/-- The format in force after some steps: the last that was put in force, or else the first. -/
def inForce (first : Option String) (steps : List Step) : String :=
  (steps.filterMap Step.format?).getLastD (first.getD "")

section Runs

variable {s : Session} {first : Option String}

theorem run_append (s : Session) (before later : List Step) :
    s.run (before ++ later) = (s.run before).run later := List.foldl_append

theorem keeps_append (before later : List Step) :
    keeps (before ++ later) = keeps before + keeps later := List.countP_append

/-! ## One step -/

/-- What a step does to the tree in force. -/
theorem tree_step {format : String} (h : s.live.tree = Tree.compile format) (next : Step) :
    (s.step next).live.tree = Tree.compile (next.format?.getD format) := by
  cases next with
  | replace => rfl
  | keep => exact h
  | evaluate => exact h
  | evaluateKept => exact h

/-- A tree that was kept stays, and stays where it was. -/
theorem kept_prefix_step (s : Session) (next : Step) : s.kept <+: (s.step next).kept := by
  cases next with
  | keep => exact List.prefix_append _ _
  | replace => exact List.prefix_refl _
  | evaluate => exact List.prefix_refl _
  | evaluateKept => exact List.prefix_refl _

theorem length_kept_step (s : Session) (next : Step) :
    (s.step next).kept.length = s.kept.length + keeps [next] := by
  cases next with
  | keep => exact List.length_append
  | replace => rfl
  | evaluate => rfl
  | evaluateKept => rfl

/-- Only a new format changes the tree in force. -/
theorem live_step {next : Step} (h : next.format? = none) : (s.step next).live = s.live := by
  cases next with
  | replace => cases h
  | keep => rfl
  | evaluate => rfl
  | evaluateKept => rfl

/-! ## Runs -/

/-- The tree in force is the tree of the format in force. -/
theorem tree_run (first : Option String) (steps : List Step) :
    ((start first).run steps).live.tree = Tree.compile (inForce first steps) := by
  have from_format : ∀ (s : Session) (format : String), s.live.tree = Tree.compile format →
      (s.run steps).live.tree =
        Tree.compile ((steps.filterMap Step.format?).getLastD format) := by
    induction steps with
    | nil => exact fun _ _ h => h
    | cons next steps ih =>
      intro s format h
      have hlater := ih (s.step next) _ (tree_step h next)
      cases hnext : next.format? with
      | none =>
        rw [hnext] at hlater
        rwa [List.filterMap_cons_none hnext]
      | some replaced =>
        rw [hnext] at hlater
        rwa [List.filterMap_cons_some hnext, List.getLastD_cons]
  refine from_format (start first) _ ?_
  cases first <;> rfl

/-- Whatever is done later, a tree that was kept stays as it was. -/
theorem kept_prefix_run (s : Session) (steps : List Step) : s.kept <+: (s.run steps).kept := by
  induction steps generalizing s with
  | nil => exact List.prefix_refl _
  | cons next steps ih => exact (kept_prefix_step s next).trans (ih _)

theorem length_kept_run (s : Session) (steps : List Step) :
    (s.run steps).kept.length = s.kept.length + keeps steps := by
  induction steps generalizing s with
  | nil => rfl
  | cons next steps ih =>
    have hcount : keeps (next :: steps) = keeps [next] + keeps steps := keeps_append [next] steps
    rw [hcount, ← Nat.add_assoc, ← length_kept_step]
    exact ih _

/-- The tree that was kept after some steps is the tree of the format that was in force then,
whatever was done later. -/
theorem kept_run (first : Option String) (before later : List Step) :
    ((start first).run (before ++ .keep :: later)).kept[keeps before]? =
      some (Tree.compile (inForce first before)) := by
  have hlength : ((start first).run before).kept.length = keeps before := by
    rw [length_kept_run]
    exact Nat.zero_add _
  have hkept : (((start first).run before).step .keep).kept[keeps before]? =
      some (Tree.compile (inForce first before)) := by
    have hlast : (((start first).run before).step .keep).kept =
        ((start first).run before).kept ++ [Tree.compile (inForce first before)] := by
      rw [← tree_run]
      rfl
    rw [hlast, ← hlength, List.getElem?_concat_length]
  obtain ⟨hlt, -⟩ := List.getElem?_eq_some_iff.mp hkept
  obtain ⟨more, hmore⟩ := kept_prefix_run (((start first).run before).step .keep) later
  have hrun : ((start first).run (before ++ .keep :: later)).kept =
      (((start first).run before).step .keep).kept ++ more := by
    rw [hmore, run_append]
    rfl
  rw [hrun, List.getElem?_append_left hlt, hkept]

end Runs

/-- A session is told by its history. The tree in force is the tree of the format in force; the tree
that was kept at some moment is the tree of the format that was in force then, whatever was done
later; and items are shown accordingly. Only a new format changes the tree in force, and nothing
changes a tree that was kept. Trees that were kept at any two moments are the same exactly when the
formats were. -/
theorem run_follows_formats (first : Option String) (steps : List Step) :
    let s := (start first).run steps
    let tree (before : List Step) := Tree.compile (inForce first before)
    s.live.tree = tree steps ∧
      (∀ metadata displayName medium, s.answer (.evaluate metadata displayName medium) =
        some ((tree steps).evaluate metadata displayName medium)) ∧
      s.kept.length = keeps steps ∧
      (∀ before later, steps = before ++ .keep :: later →
        s.kept[keeps before]? = some (tree before) ∧ ∀ metadata displayName medium,
          s.answer (.evaluateKept (keeps before) metadata displayName medium) =
            some ((tree before).evaluate metadata displayName medium)) ∧
      (∀ next : Step, next.format? = none →
        (s.step next).live = s.live ∧ s.kept <+: (s.step next).kept) ∧
      ∀ before later before' later', steps = before ++ .keep :: later →
        steps = before' ++ .keep :: later' →
        (s.kept[keeps before]? = s.kept[keeps before']? ↔
          inForce first before = inForce first before') := by
  intro s tree
  have hlive : s.live.tree = tree steps := tree_run first steps
  have hkept : ∀ before later, steps = before ++ .keep :: later →
      s.kept[keeps before]? = some (tree before) := by
    rintro before later hsteps
    have hrun := kept_run first before later
    rwa [← hsteps] at hrun
  refine ⟨hlive, ?_, ?_, ?_, fun next h => ⟨live_step h, kept_prefix_step s next⟩, ?_⟩
  · intro metadata displayName medium
    rw [answer, LiveTree.evaluate, hlive]
  · have hlength := length_kept_run (start first) steps
    rwa [show (start first).kept.length = 0 from rfl, Nat.zero_add] at hlength
  · intro before later hsteps
    refine ⟨hkept before later hsteps, fun metadata displayName medium => ?_⟩
    rw [answer, hkept before later hsteps]
    rfl
  · intro before later before' later' hsteps hsteps'
    rw [hkept before later hsteps, hkept before' later' hsteps', Option.some.injEq]
    exact Tree.compile_inj

/-- The empty format is kept, and another one, and the empty format once more. -/
theorem run_follows_formats_again :
    let steps : List Step := [.keep, .replace "%", .keep, .replace "", .keep]
    let s := (start none).run steps
    s.kept[0]? = some (Tree.compile "") ∧ s.kept[1]? = some (Tree.compile "%") ∧
      (s.step .keep).live = s.live ∧ s.kept <+: (s.step .keep).kept ∧
      s.kept[0]? ≠ s.kept[1]? ∧ s.kept[0]? = s.kept[2]? := by
  intro steps s
  obtain ⟨-, -, -, hkept, hreading, hsame⟩ := run_follows_formats none steps
  obtain ⟨hlive, hprefix⟩ := hreading .keep rfl
  have hzero : steps = [] ++ .keep :: steps.tail := rfl
  have hone : steps = [.keep, .replace "%"] ++ .keep :: [.replace "", .keep] := rfl
  have htwo : steps = [.keep, .replace "%", .keep, .replace ""] ++ .keep :: [] := rfl
  refine ⟨(hkept _ _ hzero).1, (hkept _ _ hone).1, hlive, hprefix, ?_, ?_⟩
  · intro h
    exact absurd ((hsame _ _ _ _ hzero hone).mp h) (by decide)
  · exact (hsame _ _ _ _ hzero htwo).mpr rfl

end Session

end PlayerText.Display
