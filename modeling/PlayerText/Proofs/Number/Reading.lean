import PlayerText.Proofs.Number.Padded

/-!
# Numbers read back

A text of numbers with a mark between each two, such as `01:02:05.500`, is read by cutting it at
everything that is no digit. Zeros in front do not count.

* `value?`: the number that a row of digits is.
* `numbers?`: the numbers of a text, from left to right.
* `numbers?_padded`, `numbers?_numeral`, `numbers?_padded_append`: numbers as they are written are
  read as what they are.
-/

namespace PlayerText.Number

/-- The number that a row of digits is in decimal. -/
def value? (cs : List Char) : Option Nat :=
  if cs ≠ [] ∧ cs.all Char.isDigit = true then some (Nat.ofDigitChars 10 cs 0) else none

/-- The numbers of a text, with one mark between each two. -/
def numbers? (text : String) : Option (List Nat) :=
  (text.toList.splitOnP fun c => !c.isDigit).mapM value?

section Reading

variable {c : Char} {mark : String} {n width : Nat}

theorem numeral_eq_padded (n : Nat) : numeral n = padded 0 n := by
  rw [numeral, padded, List.leftpad, Nat.zero_sub]
  rfl

theorem isDigit_of_mem_padded (h : c ∈ (padded width n).toList) : c.isDigit = true := by
  rw [toList_padded, List.mem_append] at h
  rcases h with h | h
  · rw [List.eq_of_mem_replicate h]
    rfl
  · exact Nat.isDigit_of_mem_toDigits (by decide) (by decide) h

theorem value?_padded (width n : Nat) : value? (padded width n).toList = some n := by
  have hdigits : (padded width n).toList.all Char.isDigit = true :=
    List.all_eq_true.mpr fun _ h => isDigit_of_mem_padded h
  have hne : (padded width n).toList ≠ [] := by
    rw [toList_padded]
    exact List.append_ne_nil_of_right_ne_nil _ Nat.toDigits_ne_nil
  have hvalue : Nat.ofDigitChars 10 (padded width n).toList 0 = n := by
    rw [toList_padded, Nat.ofDigitChars_append, Nat.ofDigitChars_replicate_zero, Nat.mul_zero]
    exact Nat.ofDigitChars_toDigits (by decide) (by decide)
  rw [value?, if_pos ⟨hne, hdigits⟩, hvalue]

theorem splitOnP_padded (width n : Nat) :
    (padded width n).toList.splitOnP (fun c => !c.isDigit) = [(padded width n).toList] :=
  List.splitOnP_eq_singleton fun _ h => by rw [isDigit_of_mem_padded h]; rfl

/-- A number in a fixed width is read as it is. -/
theorem numbers?_padded (width n : Nat) : numbers? (padded width n) = some [n] := by
  rw [numbers?, splitOnP_padded, List.mapM_cons, value?_padded]
  rfl

theorem numbers?_numeral (n : Nat) : numbers? (numeral n) = some [n] := by
  rw [numeral_eq_padded, numbers?_padded]

/-- A number before a mark is read first. -/
theorem numbers?_padded_append (hmark : mark.toList = [c]) (hc : c.isDigit = false) (width n : Nat)
    (rest : String) :
    numbers? (padded width n ++ (mark ++ rest)) = (numbers? rest).map (n :: ·) := by
  have hsplit : (padded width n ++ (mark ++ rest)).toList.splitOnP (fun c => !c.isDigit) =
      (padded width n).toList :: rest.toList.splitOnP (fun c => !c.isDigit) := by
    rw [String.toList_append, String.toList_append, hmark, List.singleton_append]
    exact List.splitOnP_append_cons_of_forall_mem
      (fun _ h => by rw [isDigit_of_mem_padded h]; rfl) c (by rw [hc]; rfl) _
  rw [numbers?, numbers?, hsplit, List.mapM_cons, value?_padded]
  cases List.mapM value? (rest.toList.splitOnP fun c => !c.isDigit) <;> rfl

end Reading

end PlayerText.Number
