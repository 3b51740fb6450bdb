import PlayerText.Proofs.Json.Literal
import PlayerText.Proofs.Number.Shortest

/-!
# Real numbers in writing

A decimal is written in one of four layouts, by its size. Each is a number in JSON that has the
value of the decimal, and each has a fraction or a power of ten, so that it is not taken for an
integer.

* `Literal.exact`: the decimal that a literal is, with all its digits.
* `Writes`, `writes_text`: a decimal in writing, layout by layout.
* `Number.exists_literal_of_real`: a binary64 number in writing rounds to the number.
* `Literal.number?_cases`, `Literal.exists_isText_text`, `Number.text_ne_empty`: every number that
  is read has a text, and that is a number.
-/

namespace PlayerText.Json

open PlayerText.Number

/-- The decimal that a literal is, with all its digits and without its sign. -/
def Literal.exact (l : Literal) : Decimal :=
  ⟨valueOfDigits (l.whole ++ l.fraction), l.exponent.getD 0 - l.fraction.length⟩

/-- A text is a number with the value of a decimal, and one that is not taken for an integer. -/
def Writes (text : List Char) (d : Decimal) : Prop :=
  ∃ l : Literal, l.IsText text ∧ l.negative = false ∧ (l.fraction ≠ [] ∨ l.exponent ≠ none) ∧
    l.exact.value = d.value

/-! ## Layouts -/

section Layouts

variable {c : Char} {cs ds : List Char} {d : Decimal}

theorem valueOfDigits_append_zeros (ds : List Char) (k : Nat) :
    valueOfDigits (ds ++ List.replicate k '0') = valueOfDigits ds * 10 ^ k := by
  rw [Nat.mul_comm]
  exact (Nat.ofDigitChars_append 0).trans Nat.ofDigitChars_replicate_zero

theorem valueOfDigits_zeros_append (k : Nat) (ds : List Char) :
    valueOfDigits (List.replicate k '0' ++ ds) = valueOfDigits ds := by
  change Nat.ofDigitChars 10 (List.replicate k '0' ++ ds) 0 = Nat.ofDigitChars 10 ds 0
  rw [Nat.ofDigitChars_append, Nat.ofDigitChars_replicate_zero, Nat.mul_zero]

theorem writes_congr {text : List Char} {e : Decimal} (h : d.value = e.value) :
    Writes text d ↔ Writes text e := by
  rw [Writes, Writes, h]

theorem isWhole_cons (hc : c.isDigit = true) (hne : c ≠ '0') (hcs : ∀ d ∈ cs, d.isDigit = true) :
    IsWhole (c :: cs) := by
  refine ⟨⟨List.cons_ne_nil c cs, ?_⟩, fun hhead => absurd (Option.some.inj hhead) hne⟩
  rw [List.all_cons, hc, List.all_eq_true.mpr hcs]
  rfl

theorem isDigits_of_forall (hne : cs ≠ []) (h : ∀ c ∈ cs, c.isDigit = true) : IsDigits cs :=
  ⟨hne, List.all_eq_true.mpr h⟩

/-- The significant digits of a decimal: the first one is not zero. -/
theorem exists_significant_cons (hpos : 0 < d.digits) :
    ∃ c cs, d.significant = c :: cs ∧ c.isDigit = true ∧ c ≠ '0' ∧
      (∀ d ∈ cs, d.isDigit = true) ∧
        d.value = (⟨valueOfDigits (c :: cs), d.lastPower⟩ : Decimal).value := by
  obtain ⟨m, hm, hsignificant, hvalue⟩ := Decimal.exists_significant_eq hpos
  obtain ⟨c, cs, hcs⟩ := List.exists_cons_of_ne_nil (Nat.toDigits_ne_nil (b := 10) (n := m))
  have hdigits : ∀ d ∈ c :: cs, d.isDigit = true := fun d hd =>
    Nat.isDigit_of_mem_toDigits (by decide) (by decide) (hcs ▸ hd)
  refine ⟨c, cs, hsignificant.trans hcs, hdigits c List.mem_cons_self, ?_,
    fun d hd => hdigits d (List.mem_cons_of_mem c hd), ?_⟩
  · rintro rfl
    have hzero : m = 0 := eq_zero_of_head?_toDigits (by rw [hcs]; rfl)
    exact hm (hzero ▸ Nat.dvd_zero 10)
  · rw [← hcs, valueOfDigits_toDigits]
    exact hvalue

/-- A fraction is written with its point, if there is one. -/
theorem fractionText_of_forall (hcs : ∀ d ∈ cs, d.isDigit = true) :
    FractionText (if cs.isEmpty then "" else "." ++ String.ofList cs).toList cs := by
  cases cs with
  | nil => exact .absent
  | cons d cs =>
    have htext : ("." ++ String.ofList (d :: cs)).toList = '.' :: d :: cs := by simp
    exact htext ▸ .point (isDigits_of_forall (List.cons_ne_nil d cs) hcs)

/-- A power of ten is written with its sign. -/
theorem powerText_numeral (n : Int) :
    PowerText ((if n < 0 then "e-" else "e+") ++ numeral n.natAbs).toList (some n) := by
  have hdigits := (isWhole_toDigits n.natAbs).1
  have hvalue := valueOfDigits_toDigits n.natAbs
  split
  · next h =>
    have hn : n = -(valueOfDigits (Nat.toDigits 10 n.natAbs) : Int) := by omega
    have htext : ("e-" ++ numeral n.natAbs).toList = 'e' :: '-' :: Nat.toDigits 10 n.natAbs := by
      simp [numeral, digits]
    rw [htext, congrArg some hn]
    exact .minus (.inl rfl) hdigits
  · next h =>
    have hn : n = valueOfDigits (Nat.toDigits 10 n.natAbs) := by omega
    have htext : ("e+" ++ numeral n.natAbs).toList = 'e' :: '+' :: Nat.toDigits 10 n.natAbs := by
      simp [numeral, digits]
    rw [htext, congrArg some hn]
    exact .plus (.inl rfl) hdigits

/-- A literal has the value of a decimal if its digits are those of the decimal, but for zeros at
their end, and its last place is that of the last digit. -/
theorem Literal.exact_value_eq {l : Literal} {n k : Nat} {last : Int}
    (hdigits : valueOfDigits (l.whole ++ l.fraction) = n * 10 ^ k)
    (hlast : l.exponent.getD 0 - l.fraction.length + k = last) :
    l.exact.value = (⟨n, last⟩ : Decimal).value := by
  rw [exact, hdigits, value_mul_pow, hlast]

theorem isDigit_of_mem_zeros {k : Nat} : ∀ d ∈ List.replicate k '0', d.isDigit = true :=
  fun _ hd => List.eq_of_mem_replicate hd ▸ rfl

section

variable (hc : c.isDigit = true) (hcs : ∀ d ∈ cs, d.isDigit = true)

include hc hcs

/-- A whole number, with zeros for the places that are not significant. -/
theorem writes_whole (hne : c ≠ '0') (k : Nat) :
    Writes ((c :: cs) ++ List.replicate k '0' ++ ['.', '0']) ⟨valueOfDigits (c :: cs), k⟩ := by
  refine ⟨⟨false, c :: (cs ++ List.replicate k '0'), ['0'], none⟩,
    ⟨['.', '0'], [], isWhole_cons hc hne ?_, .point ⟨nofun, rfl⟩, .absent, by simp⟩, rfl,
    .inl nofun, Literal.exact_value_eq (k := k + 1) ?_ ?_⟩
  · exact fun d hd => (List.mem_append.mp hd).elim (hcs d) (isDigit_of_mem_zeros d)
  · rw [← valueOfDigits_append_zeros, List.replicate_succ']
    simp
  · simp

/-- The point among the significant digits. -/
theorem writes_point (hne : c ≠ '0') {k : Nat} (hk : k < cs.length) :
    Writes (c :: cs.take k ++ '.' :: cs.drop k) ⟨valueOfDigits (c :: cs), k - cs.length⟩ := by
  have hdrop : cs.drop k ≠ [] := List.drop_eq_nil_iff.not.mpr (Nat.not_le.mpr hk)
  refine ⟨⟨false, c :: cs.take k, cs.drop k, none⟩,
    ⟨'.' :: cs.drop k, [], isWhole_cons hc hne ?_, .point (isDigits_of_forall hdrop ?_), .absent,
      by simp⟩, rfl, .inl hdrop, Literal.exact_value_eq (k := 0) ?_ ?_⟩
  · exact fun d hd => hcs d (List.mem_of_mem_take hd)
  · exact fun d hd => hcs d (List.mem_of_mem_drop hd)
  · simp
  · simp only [Option.getD_none, List.length_drop]
    omega

/-- Zeros between the point and the significant digits. -/
theorem writes_zeros (k : Nat) :
    Writes ('0' :: '.' :: (List.replicate k '0' ++ c :: cs))
      ⟨valueOfDigits (c :: cs), -(k + (c :: cs).length)⟩ := by
  have hall : ∀ d ∈ c :: cs, d.isDigit = true := List.forall_mem_cons.mpr ⟨hc, hcs⟩
  refine ⟨⟨false, ['0'], List.replicate k '0' ++ c :: cs, none⟩,
    ⟨'.' :: (List.replicate k '0' ++ c :: cs), [], ⟨⟨nofun, rfl⟩, fun _ => rfl⟩,
      .point (isDigits_of_forall (by simp) ?_), .absent, by simp⟩, rfl, .inl (by simp),
    Literal.exact_value_eq (k := 0) ?_ ?_⟩
  · exact fun d hd => (List.mem_append.mp hd).elim (isDigit_of_mem_zeros d) (hall d)
  · rw [Nat.pow_zero, Nat.mul_one]
    exact valueOfDigits_zeros_append (k + 1) (c :: cs)
  · simp only [Option.getD_none, List.length_append, List.length_replicate]
    omega

/-- One digit before the point, and a power of ten. -/
theorem writes_power (hne : c ≠ '0') (n : Int) :
    Writes (c :: ((if cs.isEmpty then "" else "." ++ String.ofList cs).toList ++
        ((if n < 0 then "e-" else "e+") ++ numeral n.natAbs).toList))
      ⟨valueOfDigits (c :: cs), n - cs.length⟩ := by
  refine ⟨⟨false, [c], cs, some n⟩,
    ⟨_, _, isWhole_cons hc hne nofun, fractionText_of_forall hcs, powerText_numeral n, rfl⟩, rfl,
    .inr nofun, Literal.exact_value_eq (k := 0) ?_ ?_⟩
  · rw [Nat.pow_zero, Nat.mul_one]
    rfl
  · simp

end

/-- A decimal in writing. -/
theorem writes_text (hpos : 0 < d.digits) : Writes d.text.toList d := by
  obtain ⟨c, cs, hsignificant, hc, hne, hcs, hvalue⟩ := exists_significant_cons hpos
  have hlength : (c :: cs).length = cs.length + 1 := rfl
  rw [writes_congr hvalue, Decimal.text, hsignificant]
  generalize d.lastPower = last
  dsimp only
  split
  · next h =>
    obtain ⟨k, rfl⟩ := Int.eq_ofNat_of_zero_le h.1
    simpa using writes_whole hc hcs hne k
  split
  · next h =>
    obtain ⟨k, hk⟩ : ∃ k : Nat, ((c :: cs).length + last).toNat = k + 1 :=
      ⟨_, (Nat.succ_pred_eq_of_pos (by omega)).symm⟩
    obtain rfl : last = k - cs.length := by omega
    rw [hk, List.take_succ_cons, List.drop_succ_cons]
    simpa using writes_point hc hcs hne (by omega)
  split
  · next h =>
    obtain ⟨k, hk⟩ := Int.eq_ofNat_of_zero_le (by omega : 0 ≤ -((c :: cs).length + last))
    obtain rfl : last = -(k + (c :: cs).length) := by omega
    rw [hk]
    simpa using writes_zeros hc hcs k
  · obtain ⟨n, rfl⟩ : ∃ n : Int, last = n - cs.length := ⟨last + cs.length, by omega⟩
    have hn : (c :: cs).length + (n - cs.length) - 1 = n := by omega
    rw [hn, List.take_succ_cons, List.take_zero, List.drop_succ_cons, List.drop_zero]
    simpa using writes_power hc hcs hne n

end Layouts

/-! ## Numbers -/

section Numbers

variable {l : Literal} {v : List Char} {n : Number} {units : Nat}

theorem Literal.IsText.minus (h : l.IsText v) (hsign : l.negative = false) :
    Literal.IsText ⟨true, l.whole, l.fraction, l.exponent⟩ ('-' :: v) := by
  obtain ⟨fraction, power, hwhole, hfraction, hpower, rfl⟩ := h
  rw [hsign]
  exact ⟨fraction, power, hwhole, hfraction, hpower, rfl⟩

/-- A magnitude in writing rounds to itself. -/
theorem exists_literal_shortestText (h : Representable units) :
    ∃ l : Literal, l.IsText (shortestText units).toList ∧ l.negative = false ∧
      (l.fraction ≠ [] ∨ l.exponent ≠ none) ∧ rounded l.exact.value = rational units := by
  rcases Nat.eq_zero_or_pos units with rfl | hpos
  · refine ⟨⟨false, ['0'], ['0'], none⟩,
      ⟨['.', '0'], [], ⟨⟨nofun, rfl⟩, fun _ => rfl⟩, .point ⟨nofun, rfl⟩, .absent, rfl⟩, rfl,
      .inl nofun, ?_⟩
    have hzero : (Literal.exact ⟨false, ['0'], ['0'], none⟩).value = rational (0 : Nat) := by
      rw [Nat.cast_zero, rational_zero]
      exact zero_mul _
    rw [hzero, rounded_of_representable h]
  · obtain ⟨d, hd, hround, -⟩ := exists_shortest? h hpos
    obtain ⟨l, htext, hsign, hreal, hvalue⟩ := writes_text (digits_pos_of_rounded hpos hround)
    refine ⟨l, ?_, hsign, hreal, hvalue ▸ hround⟩
    rw [shortestText, if_neg hpos.ne', hd]
    exact htext

/-- A binary64 number in writing is a number with its sign that rounds to its magnitude, and no
integer. -/
theorem Number.exists_literal_of_real (negative : Bool) (h : Representable units) :
    ∃ l : Literal, l.IsText (Number.real negative units).text.toList ∧ l.negative = negative ∧
      (l.fraction ≠ [] ∨ l.exponent ≠ none) ∧ rounded l.exact.value = rational units := by
  obtain ⟨l, htext, hsign, hreal, hvalue⟩ := exists_literal_shortestText h
  cases negative with
  | false => exact ⟨l, htext, hsign, hreal, hvalue⟩
  | true =>
    refine ⟨⟨true, l.whole, l.fraction, l.exponent⟩, ?_, rfl, hreal, hvalue⟩
    rw [Number.text, if_pos rfl, String.toList_append]
    exact htext.minus hsign

/-! ## Numbers that are read -/

/-- A number that is read is an integer of 64 bits, or its magnitude is one that binary64 has. -/
theorem Literal.number?_cases (h : l.number? = some n) :
    (∃ value, n = .integer value ∧ -(Nat.pow 2 63 : Int) ≤ value ∧ value < Nat.pow 2 64) ∨
      ∃ units, n = .real l.negative units ∧ Representable units := by
  have hreal : l.decimal.magnitude?.map (.real l.negative) = some n →
      ∃ units, n = .real l.negative units ∧ Representable units := by
    intro h
    obtain ⟨units, hunits, rfl⟩ := Option.map_eq_some_iff.mp h
    exact ⟨units, rfl, Decimal.representable_magnitude? hunits⟩
  unfold Literal.number? at h
  dsimp only at h
  split at h
  · split at h
    · split at h
      · exact .inl ⟨_, (Option.some.inj h).symm, by omega, by omega⟩
      · exact .inr (hreal h)
    · split at h
      · exact .inl ⟨_, (Option.some.inj h).symm, by omega, by omega⟩
      · exact .inr (hreal h)
  · exact .inr (hreal h)

/-- It is written as a number again: an integer as one that stands for it, all others as
`exists_literal_of_real` says. -/
theorem Literal.exists_isText_text (h : l.number? = some n) :
    ∃ written : Literal, written.IsText n.text.toList := by
  rcases l.number?_cases h with ⟨value, rfl, hlow, hhigh⟩ | ⟨units, rfl, hunits⟩
  · obtain ⟨written, htext, -⟩ := exists_literal_of_int hlow hhigh
    exact ⟨written, Number.text_integer value ▸ htext⟩
  · obtain ⟨written, htext, -⟩ := Number.exists_literal_of_real l.negative hunits
    exact ⟨written, htext⟩

theorem Number.text_ne_empty (h : l.number? = some n) : n.text ≠ "" := by
  obtain ⟨written, htext⟩ := Literal.exists_isText_text h
  obtain ⟨c, r, hcons, -⟩ := htext.exists_cons
  intro hempty
  rw [hempty] at hcons
  cases hcons

end Numbers

end PlayerText.Json
