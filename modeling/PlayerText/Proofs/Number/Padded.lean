import Mathlib.Algebra.Group.Nat.Defs
import PlayerText.Number.Numeral

/-!
# Padded numerals in order

A number that its width has room for is written with as many digits as the width says. Numbers of
one width are therefore ordered as texts, character by character, as they are ordered as numbers.

* `compare_append`: rows with first parts of one length are compared part by part.
* `digits_of_lt`, `digits_of_le`, `toList_padded_one`, `toList_padded_succ`: numerals by their last
  digit.
* `length_padded`: the width is the length.
* `compare_padded`: the order of padded numerals.
-/

namespace PlayerText.Number

/-- Of two rows whose first parts are of one length, the first parts are compared first. -/
theorem compare_append {α : Type} [Ord α] {a a' : List α} (h : a.length = a'.length)
    (b b' : List α) : compare (a ++ b) (a' ++ b') = (compare a a').then (compare b b') := by
  induction a generalizing a' with
  | nil =>
    obtain rfl : a' = [] := List.eq_nil_of_length_eq_zero h.symm
    rfl
  | cons x a ih =>
    cases a' with
    | nil => cases h
    | cons x' a' =>
      rw [List.cons_append, List.cons_append, List.compare_cons_cons, List.compare_cons_cons,
        ih (Nat.succ.inj h), Ordering.then_assoc]

section Digits

variable {m n width : Nat}

theorem digits_of_lt (h : n < 10) : digits n = [Nat.digitChar n] := Nat.toDigits_of_lt_base h

theorem digits_of_le (h : 10 ≤ n) : digits n = digits (n / 10) ++ [Nat.digitChar (n % 10)] := by
  rw [digits, Nat.toDigits_eq_if (by decide), if_neg (Nat.not_lt.mpr h)]
  rfl

theorem toList_padded (width n : Nat) :
    (padded width n).toList = List.replicate (width - (digits n).length) '0' ++ digits n :=
  String.toList_ofList

theorem toList_padded_one (h : n < 10) : (padded 1 n).toList = [Nat.digitChar n] := by
  rw [toList_padded, digits_of_lt h]
  rfl

/-- All digits but the last are those of a tenth of the number, padded to one place less. -/
theorem toList_padded_succ (width n : Nat) : (padded (width + 2) n).toList =
    (padded (width + 1) (n / 10)).toList ++ [Nat.digitChar (n % 10)] := by
  rw [toList_padded, toList_padded]
  by_cases h : n < 10
  · have hzeros : List.replicate (width + 1) '0' = List.replicate width '0' ++ ['0'] :=
      List.replicate_succ'
    rw [digits_of_lt h, Nat.div_eq_of_lt h, Nat.mod_eq_of_lt h, digits_of_lt (by decide)]
    exact congrArg (· ++ [Nat.digitChar n]) hzeros
  · have hlength : width + 2 - (digits (n / 10) ++ [Nat.digitChar (n % 10)]).length =
        width + 1 - (digits (n / 10)).length := by
      rw [List.length_append, List.length_singleton]
      omega
    rw [digits_of_le (Nat.not_lt.mp h), hlength, List.append_assoc]

theorem div_lt_of_lt (h : n < 10 ^ (width + 2)) : n / 10 < 10 ^ (width + 1) := by
  rw [pow_succ] at h
  omega

/-- A number that the width has room for is as long as the width. -/
theorem length_padded (hpos : 0 < width) (h : n < 10 ^ width) :
    (padded width n).toList.length = width := by
  induction width generalizing n with
  | zero => contradiction
  | succ width ih =>
    cases width with
    | zero => rw [toList_padded_one h]; rfl
    | succ width =>
      rw [toList_padded_succ, List.length_append, ih (Nat.succ_pos width) (div_lt_of_lt h)]
      rfl

theorem compare_digitChar : ∀ m < 10, ∀ n < 10,
    compare (Nat.digitChar m) (Nat.digitChar n) = compare m n := by
  decide

/-- Numbers are compared by their tenths first and then by their last digits. -/
theorem compare_div_mod (m n : Nat) :
    compare m n = (compare (m / 10) (n / 10)).then (compare (m % 10) (n % 10)) := by
  rcases Nat.lt_trichotomy (m / 10) (n / 10) with htenth | htenth | htenth
  · rw [Nat.compare_eq_lt.mpr htenth, Nat.compare_eq_lt.mpr (by omega)]
    rfl
  · rw [Nat.compare_eq_eq.mpr htenth]
    rcases Nat.lt_trichotomy (m % 10) (n % 10) with hlast | hlast | hlast
    · rw [Nat.compare_eq_lt.mpr hlast, Nat.compare_eq_lt.mpr (by omega)]
      rfl
    · rw [Nat.compare_eq_eq.mpr hlast, Nat.compare_eq_eq.mpr (by omega)]
      rfl
    · rw [Nat.compare_eq_gt.mpr hlast, Nat.compare_eq_gt.mpr (by omega)]
      rfl
  · rw [Nat.compare_eq_gt.mpr htenth, Nat.compare_eq_gt.mpr (by omega)]
    rfl

/-- Padded to one width that has room for them, numbers are ordered as texts as they are as
numbers. -/
theorem compare_padded (hpos : 0 < width) (hm : m < 10 ^ width) (hn : n < 10 ^ width) :
    compare (padded width m).toList (padded width n).toList = compare m n := by
  induction width generalizing m n with
  | zero => contradiction
  | succ width ih =>
    cases width with
    | zero =>
      rw [toList_padded_one hm, toList_padded_one hn, List.compare_cons_cons,
        compare_digitChar m hm n hn]
      exact Ordering.then_eq
    | succ width =>
      have hm' := div_lt_of_lt hm
      have hn' := div_lt_of_lt hn
      have hpos' := Nat.succ_pos width
      have hlength := (length_padded hpos' hm').trans (length_padded hpos' hn').symm
      have hlast := compare_digitChar (m % 10) (Nat.mod_lt m (by decide)) (n % 10)
        (Nat.mod_lt n (by decide))
      rw [toList_padded_succ, toList_padded_succ, compare_append hlength, ih hpos' hm' hn',
        List.compare_cons_cons, hlast, compare_div_mod m n]
      exact congrArg _ Ordering.then_eq

end Digits

end PlayerText.Number
