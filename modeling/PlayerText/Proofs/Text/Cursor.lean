import Mathlib.Algebra.Order.Ring.Nat
import PlayerText.Proofs.Text.GroupRow
import PlayerText.Text.Cursor

/-!
# Reading from places that are counted in bytes

A cursor counts in bytes, and every call moves it by a rule of its own: by the size of a character,
to a place that was found, to one byte behind it, or to the end. All the same it never leaves the
boundaries between characters, so that all its cuts succeed, and what it gives is what the readers
of `PlayerText.Text.Group`, with which formats are read, give on the characters that are left.

* `byteLength`, `withBraces`: how many bytes some characters have, and a group as it is written.
* `Cursor.Splits`: the characters in front of a cursor and behind it.
* `Cursor.Splits.rest?_eq`, `Cursor.Splits.advance`: what is left of the text, and where a cursor is
  after some characters.
* `Cursor.Splits.group_eq`, `Cursor.Splits.upTo_of_mem`: a group, and the text before a character.
* `Cursor.Call`, `Cursor.Call.perform`, `Cursor.Call.read`: what a cursor is asked for, and the same
  on the characters that are left.
* `Cursor.Call.piece_append_read`, `Cursor.Splits.perform_eq`: what one call reads.
* `Cursor.run`, `Cursor.readAll`, `Cursor.Splits.exists_run`: call after call.
* `Cursor.Splits.exists_run_groups`: as many groups as a directive has.
* `Cursor.run_start_splits`: a cursor is always between two characters, and no character gets lost.
-/

namespace PlayerText.Text

/-- The number of bytes of some characters. -/
def byteLength (cs : List Char) : Nat := (cs.map Char.utf8Size).sum

section Bytes

variable {g r : List Char} {c : Char}

@[simp] theorem byteLength_nil : byteLength [] = 0 := rfl

@[simp] theorem byteLength_cons (c : Char) (cs : List Char) :
    byteLength (c :: cs) = c.utf8Size + byteLength cs := by
  simp [byteLength]

@[simp] theorem byteLength_append (cs r : List Char) :
    byteLength (cs ++ r) = byteLength cs + byteLength r := by
  simp [byteLength]

theorem utf8ByteSize_ofList (cs : List Char) : (String.ofList cs).utf8ByteSize = byteLength cs := by
  induction cs with
  | nil => rfl
  | cons c cs ih =>
    rw [String.ofList_cons, String.utf8ByteSize_append, String.utf8ByteSize_singleton, ih,
      byteLength_cons]

theorem upToByte?_ofList (g r : List Char) :
    upToByte? (String.ofList (g ++ r)) (byteLength g) = some (String.ofList g) := by
  rw [String.ofList_append, ← utf8ByteSize_ofList, upToByte?_append]

theorem findByte?_ofList (h : c ∉ g) :
    findByte? (String.ofList (g ++ c :: r)) c = some (byteLength g) := by
  rw [String.ofList_append, String.ofList_cons, ← utf8ByteSize_ofList]
  exact findByte?_append (by rwa [String.toList_ofList])

theorem findByte?_ofList_eq_none (h : c ∉ g) : findByte? (String.ofList g) c = none :=
  findByte?_eq_none (by rwa [String.toList_ofList])

end Bytes

/-! ## Groups with their braces -/

/-- A group as it stands in front of a text: with the braces that are there. -/
def withBraces (cs g : List Char) : List Char :=
  if cs.head? = some '{' then '{' :: (g ++ if '}' ∈ cs then ['}'] else []) else g

section Braces

variable {cs g r : List Char}

theorem withBraces_closed (g r : List Char) :
    withBraces ('{' :: (g ++ '}' :: r)) g = '{' :: (g ++ ['}']) := by
  simp [withBraces]

theorem withBraces_unclosed (h : '}' ∉ g) : withBraces ('{' :: g) g = '{' :: g := by
  simp [withBraces, h]

theorem withBraces_missing (h : cs.head? ≠ some '{') : withBraces cs [] = [] := if_neg h

/-- A group with its braces and what follows it make up the text. -/
theorem Group.withBraces_append (h : Group cs g r) : withBraces cs g ++ r = cs := by
  cases h with
  | closed => simp [withBraces_closed]
  | unclosed hclose => rw [withBraces_unclosed hclose, List.append_nil]
  | missing hopen => rw [withBraces_missing hopen, List.nil_append]

end Braces

/-! ## One cursor -/

namespace Cursor

/-- A cursor stands between the characters `before` and `rest` of its text. -/
structure Splits (c : Cursor) (before rest : List Char) : Prop where
  /-- The characters in front of the cursor and behind it are the text. -/
  source : c.source.toList = before ++ rest
  /-- The place is the number of bytes of the characters in front. -/
  position : c.position = byteLength before

section Calls

variable {c : Cursor} {before rest piece : List Char}

theorem splits_start (source : String) : (start source).Splits [] source.toList := ⟨rfl, rfl⟩

theorem Splits.source_eq (h : c.Splits before rest) :
    c.source = String.ofList before ++ String.ofList rest := by
  rw [← String.ofList_append, ← h.source, String.ofList_toList]

theorem Splits.utf8ByteSize_eq (h : c.Splits before rest) :
    c.source.utf8ByteSize = c.position + byteLength rest := by
  rw [h.source_eq, String.utf8ByteSize_append, utf8ByteSize_ofList, utf8ByteSize_ofList, h.position]

/-- What is left of the text. -/
theorem Splits.rest?_eq (h : c.Splits before rest) : c.rest? = some (String.ofList rest) := by
  rw [rest?, h.source_eq, h.position, ← utf8ByteSize_ofList, fromByte?_append]

theorem advance_advance (c : Cursor) (m n : Nat) : (c.advance m).advance n = c.advance (m + n) := by
  simp only [Cursor.advance, Nat.add_assoc]

/-- Behind some more characters a cursor is between two characters again. -/
theorem Splits.advance (h : c.Splits before (piece ++ rest)) :
    (c.advance (byteLength piece)).Splits (before ++ piece) rest where
  source := by rw [List.append_assoc, ← h.source]; rfl
  position := by rw [byteLength_append, ← h.position]; rfl

theorem Splits.peek_eq (h : c.Splits before rest) : c.peek = some rest.head? := by
  rw [peek, h.rest?_eq, Option.map_some, String.front?_eq, String.toList_ofList]

theorem Splits.next_eq (h : c.Splits before rest) :
    c.next = some (rest.head?, c.advance (byteLength rest.head?.toList)) := by
  rw [next, h.peek_eq]
  cases rest <;> rfl

theorem Splits.eat_of_head {expected : Char} (h : c.Splits before (expected :: rest)) :
    c.eat expected = some (true, c.advance expected.utf8Size) := by
  rw [eat, h.peek_eq]
  exact if_pos rfl

theorem Splits.eat_of_head_ne {expected : Char} (h : c.Splits before rest)
    (hne : rest.head? ≠ some expected) : c.eat expected = some (false, c) := by
  rw [eat, h.peek_eq]
  exact if_neg hne

/-- Behind the brace that opens a group stand the group and what follows it. -/
theorem Splits.advance_open {cs : List Char} (h : c.Splits before ('{' :: cs)) :
    (c.advance '{'.utf8Size).Splits (before ++ ['{']) cs := by
  have hopen : (c.advance (byteLength ['{'])).Splits (before ++ ['{']) cs := h.advance
  exact hopen

/-- The next group is read with its braces. -/
theorem Splits.group_eq {g r : List Char} (h : c.Splits before rest) (hg : Group rest g r) :
    c.group = some (String.ofList g, c.advance (byteLength (withBraces rest g))) := by
  cases hg with
  | closed hclose =>
    -- Both braces have one byte: the opening one is eaten, the closing one is the `+ 1`.
    have hplace : c.advance (byteLength ('{' :: (g ++ ['}']))) =
        (c.advance '{'.utf8Size).advance (byteLength g + 1) := by
      rw [advance_advance, byteLength_cons, byteLength_append]
      rfl
    simp only [group, h.eat_of_head, h.advance_open.rest?_eq, findByte?_ofList hclose,
      upToByte?_ofList, Option.bind_eq_bind, Option.bind_some, withBraces_closed, hplace]
    rfl
  | unclosed hclose =>
    -- The cursor jumps to the end of the whole text, which is the end of the group.
    have hplace : c.advance (byteLength ('{' :: g)) =
        { c with position := c.source.utf8ByteSize } := by
      rw [h.utf8ByteSize_eq]
      rfl
    simp only [group, h.eat_of_head, h.advance_open.rest?_eq, findByte?_ofList_eq_none hclose,
      Option.bind_eq_bind, Option.bind_some, withBraces_unclosed hclose, hplace]
    rfl
  | missing hopen =>
    simp only [group, h.eat_of_head_ne hopen, Option.bind_eq_bind, Option.bind_some,
      withBraces_missing hopen]
    rfl

theorem Splits.upTo_of_mem {stop : Char} {t r : List Char} (h : c.Splits before (t ++ stop :: r))
    (ht : stop ∉ t) : c.upTo stop = some (some (String.ofList t), c.advance (byteLength t)) := by
  simp only [upTo, h.rest?_eq, Option.bind_eq_bind, Option.bind_some, findByte?_ofList ht,
    upToByte?_ofList]
  rfl

theorem Splits.upTo_of_not_mem {stop : Char} (h : c.Splits before rest) (ht : stop ∉ rest) :
    c.upTo stop = some (none, c) := by
  simp only [upTo, h.rest?_eq, Option.bind_eq_bind, Option.bind_some, findByte?_ofList_eq_none ht]
  rfl

end Calls

/-! ## Calls -/

/-- Something that a cursor is asked for. -/
inductive Call where
  /-- The character at the place. -/
  | peek
  /-- The same, and it is read. -/
  | next
  /-- Whether it is the expected one, and then it is read. -/
  | eat (expected : Char)
  /-- A group, which is read with its braces. -/
  | group
  /-- The text before a character, which is read. -/
  | upTo (stop : Char)
  deriving DecidableEq

/-- What a cursor answers. -/
inductive Answer where
  /-- A character, if there is one. -/
  | char (c : Option Char)
  /-- Whether the expected character was there. -/
  | eaten (found : Bool)
  /-- The text of a group. -/
  | group (g : String)
  /-- The text before a character, if that occurs. -/
  | upTo (text : Option String)
  deriving DecidableEq

/-- Whether an answer says that something is not there. -/
def Answer.isNothing : Answer → Bool
  | char none | eaten false | upTo none => true
  | _ => false

namespace Call

/-- What a cursor answers, and the cursor after it. -/
def perform (c : Cursor) : Call → Option (Answer × Cursor)
  | peek => c.peek.map fun answer => (.char answer, c)
  | next => c.next.map (Prod.map .char id)
  | eat expected => (c.eat expected).map (Prod.map .eaten id)
  | group => c.group.map (Prod.map .group id)
  | upTo stop => (c.upTo stop).map (Prod.map .upTo id)

/-- The same on the characters that are left, with those that are left after it. -/
def read (cs : List Char) : Call → Answer × List Char
  | peek => (.char cs.head?, cs)
  | next => (.char cs.head?, cs.tail)
  | eat expected => if cs.head? = some expected then (.eaten true, cs.tail) else (.eaten false, cs)
  | group => (.group (String.ofList (Text.group cs).1), (Text.group cs).2)
  | upTo stop =>
    match upTo? stop cs with
    | some (text, r) => (.upTo (some (String.ofList text)), r)
    | none => (.upTo none, cs)

/-- The characters that were read in front of a text, by the answer. -/
def piece (cs : List Char) : Call → Answer → List Char
  | next, .char (some c) => [c]
  | eat expected, .eaten true => [expected]
  | group, .group g => withBraces cs g.toList
  | upTo _, .upTo (some text) => text.toList
  | _, _ => []

end Call

section OneCall

variable {c : Cursor} {before rest : List Char}

/-- What was read and what is left make up the text. -/
theorem Call.piece_append_read (call : Call) (cs : List Char) :
    call.piece cs (call.read cs).1 ++ (call.read cs).2 = cs := by
  cases call with
  | peek => rfl
  | next => cases cs <;> rfl
  | eat expected =>
    by_cases h : cs.head? = some expected
    · obtain ⟨r, rfl⟩ := List.head?_eq_some_iff.mp h
      simp [read, piece]
    · simp [read, piece, h]
  | group =>
    obtain ⟨g, r, hg⟩ := exists_group cs
    rw [read, hg.eq, piece, String.toList_ofList, hg.withBraces_append]
  | upTo stop =>
    by_cases h : stop ∈ cs
    · obtain ⟨t, r, rfl, ht⟩ := List.eq_append_cons_of_mem h
      rw [read, upTo?_append ht]
      simp [piece]
    · rw [read, upTo?_eq_none_iff.mpr h]
      rfl

/-- What a cursor answers is what is found on the characters that are left, and it goes on by the
bytes of what was read. -/
theorem Splits.perform_eq (h : c.Splits before rest) (call : Call) :
    call.perform c = some ((call.read rest).1,
      c.advance (byteLength (call.piece rest (call.read rest).1))) := by
  cases call with
  | peek =>
    rw [Call.perform, h.peek_eq]
    rfl
  | next =>
    rw [Call.perform, h.next_eq]
    cases rest <;> rfl
  | eat expected =>
    by_cases hhead : rest.head? = some expected
    · obtain ⟨r, rfl⟩ := List.head?_eq_some_iff.mp hhead
      rw [Call.perform, h.eat_of_head, Call.read, if_pos hhead]
      rfl
    · rw [Call.perform, h.eat_of_head_ne hhead, Call.read, if_neg hhead]
      rfl
  | group =>
    obtain ⟨g, r, hg⟩ := exists_group rest
    rw [Call.perform, h.group_eq hg, Call.read, hg.eq, Call.piece, String.toList_ofList]
    rfl
  | upTo stop =>
    by_cases hmem : stop ∈ rest
    · obtain ⟨t, r, rfl, ht⟩ := List.eq_append_cons_of_mem hmem
      rw [Call.perform, h.upTo_of_mem ht, Call.read, upTo?_append ht, Call.piece,
        String.toList_ofList]
      rfl
    · rw [Call.perform, h.upTo_of_not_mem hmem, Call.read, upTo?_eq_none_iff.mpr hmem]
      rfl

theorem Call.piece_of_isNothing {answer : Answer} (h : answer.isNothing = true) (call : Call)
    (cs : List Char) : call.piece cs answer = [] := by
  cases answer with
  | char found =>
    cases found with
    | none => cases call <;> rfl
    | some => cases h
  | eaten found =>
    cases found with
    | false => cases call <;> rfl
    | true => cases h
  | group => cases h
  | upTo text =>
    cases text with
    | none => cases call <;> rfl
    | some => cases h

/-- A call that finds nothing leaves the cursor where it is. -/
theorem advance_of_idle {call : Call} (h : call = .peek ∨ (call.read rest).1.isNothing = true ∨
    call = .group ∧ rest.head? ≠ some '{') :
    c.advance (byteLength (call.piece rest (call.read rest).1)) = c := by
  have hpiece : call.piece rest (call.read rest).1 = [] := by
    rcases h with rfl | hnothing | ⟨rfl, hopen⟩
    · rfl
    · exact call.piece_of_isNothing hnothing rest
    · rw [Call.read, group_missing hopen]
      exact withBraces_missing hopen
  rw [hpiece]
  rfl

end OneCall

/-! ## Call after call -/

/-- A call with the cursors before it and after it. -/
structure Step where
  /-- What the cursor was asked for. -/
  call : Call
  /-- The cursor before the call. -/
  before : Cursor
  /-- What it answered. -/
  answer : Answer
  /-- The cursor after the call. -/
  after : Cursor

namespace Step

/-- The characters that were read. -/
def piece (s : Step) : List Char := s.call.piece (s.before.rest?.getD "").toList s.answer

/-- Nothing was asked for that is read, or what was asked for was not there. -/
def Idle (s : Step) : Prop :=
  s.call = .peek ∨ s.answer.isNothing = true ∨
    s.call = .group ∧ s.before.peek ≠ some (some '{')

end Step

/-- One call after the other, and the cursor after the last. -/
def run (c : Cursor) : List Call → Option (List Step × Cursor)
  | [] => some ([], c)
  | call :: calls => do
    let (answer, after) ← call.perform c
    let (steps, last) ← run after calls
    return (⟨call, c, answer, after⟩ :: steps, last)

/-- The same on the characters that are left. -/
def readAll (cs : List Char) : List Call → List Answer × List Char
  | [] => ([], cs)
  | call :: calls =>
    let first := call.read cs
    let others := readAll first.2 calls
    (first.1 :: others.1, others.2)

section Runs

variable {c : Cursor} {before rest : List Char}

theorem Splits.piece_eq (h : c.Splits before rest) (call : Call) (answer : Answer)
    (after : Cursor) : (Step.mk call c answer after).piece = call.piece rest answer := by
  rw [Step.piece, h.rest?_eq, Option.getD_some, String.toList_ofList]

/-- A call succeeds. It answers as on the characters that are left, and the cursor goes on over
those that are read. It stays where it is if there are none to read. -/
theorem Splits.exists_step (h : c.Splits before rest) (call : Call) :
    ∃ s : Step, call.perform c = some (s.answer, s.after) ∧ s.call = call ∧ s.before = c ∧
      s.answer = (call.read rest).1 ∧ s.after.source = c.source ∧
      s.after.Splits (before ++ s.piece) (call.read rest).2 ∧
      s.before.position ≤ s.after.position ∧ (s.Idle → s.after = s.before) := by
  refine ⟨⟨call, c, _, _⟩, h.perform_eq call, rfl, rfl, rfl, rfl, ?_, Nat.le_add_right _ _, ?_⟩
  · rw [h.piece_eq]
    refine Splits.advance ?_
    rwa [call.piece_append_read]
  · rintro (hpeek | hnothing | ⟨hgroup, hopen⟩)
    · exact advance_of_idle (.inl hpeek)
    · exact advance_of_idle (.inr (.inl hnothing))
    · refine advance_of_idle (.inr (.inr ⟨hgroup, fun hhead => hopen ?_⟩))
      exact h.peek_eq.trans (congrArg some hhead)

/-- Calls one after the other succeed. They answer as on the characters that are left, and the
cursor goes on over those that are read. -/
theorem Splits.exists_run (h : c.Splits before rest) (calls : List Call) :
    ∃ steps last, c.run calls = some (steps, last) ∧ steps.map Step.call = calls ∧
      steps.map Step.answer = (readAll rest calls).1 ∧ last.source = c.source ∧
      last.Splits (before ++ steps.flatMap Step.piece) (readAll rest calls).2 ∧
      ∀ s ∈ steps, s.before.position ≤ s.after.position ∧ (s.Idle → s.after = s.before) := by
  induction calls generalizing c before rest with
  | nil =>
    refine ⟨[], c, rfl, rfl, rfl, rfl, ?_, fun _ hs => (nomatch hs)⟩
    rwa [List.flatMap_nil, List.append_nil]
  | cons call calls ih =>
    -- The cursor stands between two characters again, so the later calls go on from there.
    obtain ⟨s, hperform, rfl, rfl, hanswer, hsource, hsplits, hsound⟩ := h.exists_step call
    obtain ⟨steps, last, hrun, hcalls, hanswers, hsource', hsplits', hsound'⟩ := ih hsplits
    refine ⟨s :: steps, last, ?_, by rw [List.map_cons, hcalls], ?_, hsource'.trans hsource, ?_,
      List.forall_mem_cons.mpr ⟨hsound, hsound'⟩⟩
    · simp only [run, hperform, hrun, Option.bind_eq_bind, Option.bind_some]
      rfl
    · rw [List.map_cons, hanswer, hanswers]
      rfl
    · rwa [List.flatMap_cons, ← List.append_assoc]

theorem readAll_replicate_group (n : Nat) (cs : List Char) :
    readAll cs (List.replicate n .group) =
      ((groupList n cs).1.map fun g => .group (String.ofList g), (groupList n cs).2) := by
  induction n generalizing cs with
  | zero => rfl
  | succ n ih =>
    obtain ⟨g, r, hg⟩ := exists_group cs
    rw [List.replicate_succ, readAll, Call.read, hg.eq, ih, groupList_succ hg]
    rfl

/-- Asked for `n` groups, a cursor answers with the `n` groups of the characters that are left, and
it stands in front of what follows these: so many bytes before the end of its text. -/
theorem Splits.exists_run_groups (h : c.Splits before rest) (n : Nat) :
    ∃ steps last, c.run (List.replicate n .group) = some (steps, last) ∧
      steps.map Step.answer =
        List.ofFn (fun i => .group (String.ofList ((groups n rest).1 i))) ∧
      last.rest? = some (String.ofList (groups n rest).2) ∧
      last.position + byteLength (groups n rest).2 = c.source.utf8ByteSize := by
  obtain ⟨steps, last, hrun, -, hanswers, hsource, hsplits, -⟩ :=
    h.exists_run (List.replicate n .group)
  rw [readAll_replicate_group] at hanswers hsplits
  refine ⟨steps, last, hrun, ?_, hsplits.rest?_eq, ?_⟩
  · rw [hanswers, groupList, List.map_ofFn]
    rfl
  · rw [← hsource]
    exact hsplits.utf8ByteSize_eq.symm

end Runs

/-- A cursor is always between two characters of its text, and none gets lost. Whatever it is asked
for, call after call, no cut fails; its place is the number of bytes of the characters in front of
it, and these are the pieces that were read, one after the other. No call takes the cursor back, and
one that finds nothing leaves it where it is. What it answers and what it leaves is what is found
and left on the characters themselves. -/
theorem run_start_splits (source : String) (calls : List Call) :
    ∃ steps cursor before rest,
      (start source).run calls = some (steps, cursor) ∧ steps.map Step.call = calls ∧
      source.toList = before ++ rest ∧ steps.flatMap Step.piece = before ∧
      cursor.position = (before.map Char.utf8Size).sum ∧
      cursor.position ≤ source.utf8ByteSize ∧ cursor.rest? = some (String.ofList rest) ∧
      (∀ s ∈ steps, s.before.position ≤ s.after.position ∧ (s.Idle → s.after = s.before)) ∧
      readAll source.toList calls = (steps.map Step.answer, rest) := by
  obtain ⟨steps, cursor, hrun, hcalls, hanswers, hsource, hsplits, hsteps⟩ :=
    (splits_start source).exists_run calls
  rw [List.nil_append] at hsplits
  have hsize := hsplits.utf8ByteSize_eq
  rw [hsource] at hsize
  refine ⟨steps, cursor, _, _, hrun, hcalls, ?_, rfl, hsplits.position, ?_, hsplits.rest?_eq,
    hsteps, Prod.ext hanswers.symm rfl⟩
  · rw [← hsplits.source, hsource]
    rfl
  · exact hsize ▸ Nat.le_add_right _ _

end Cursor

end PlayerText.Text
