import Mathlib.Data.List.Basic
import PlayerText.Proofs.Json.Grammar
import PlayerText.Proofs.Json.Inversion

/-!
# Numbers as they are written

A number is read up to the first character that cannot belong to it.

* `EndsNumber`: what follows a number does not go on with it.
* `reads_digitRun_iff`, `reads_wholeDigits_iff`: digits are read as far as they go.
* `Reads.literal_isText`, `Literal.IsText.reads`: a number that was read is written there, and one
  that is written is read.
* `exists_literal_of_int`, `Number.text_integer`: the integers of 64 bits.
-/

namespace PlayerText.Json

variable {cs rest ds : List Char}

/-- The text does not go on with a digit. -/
def StopsDigits (rest : List Char) : Prop := ∀ c ∈ rest.head?, c.isDigit = false

/-- The text does not go on with a character that would belong to a number in front of it. -/
def EndsNumber (rest : List Char) : Prop :=
  ∀ c ∈ rest.head?, c.isDigit = false ∧ c ≠ '.' ∧ c ≠ 'e' ∧ c ≠ 'E'

theorem EndsNumber.stopsDigits (h : EndsNumber rest) : StopsDigits rest := fun c hc => (h c hc).1

/-! ## Digits -/

theorem reads_digitRun_iff : Reads digitRun cs ds rest ↔
    IsDigits ds ∧ StopsDigits rest ∧ cs = ds ++ rest := by
  constructor
  · rintro ⟨shorter, h⟩
    cases cs with
    | nil => cases h
    | cons c r =>
      rw [digitRun] at h
      split at h
      · next hc =>
        cases h
        refine ⟨⟨List.cons_ne_nil _ _, ?_⟩, ?_, ?_⟩
        · rw [List.all_cons, hc, List.all_takeWhile]
          rfl
        · intro d hd
          have hhead := List.head?_dropWhile_not Char.isDigit r
          rw [Option.mem_def.mp hd] at hhead
          exact hhead
        · rw [List.cons_append, List.takeWhile_append_dropWhile]
      · cases h
  · rintro ⟨⟨hne, hall⟩, hstops, rfl⟩
    obtain ⟨d, ds, rfl⟩ := List.exists_cons_of_ne_nil hne
    rw [List.all_cons, Bool.and_eq_true] at hall
    obtain ⟨hd, hds⟩ := hall
    have htake : (ds ++ rest).takeWhile Char.isDigit = ds := by
      rw [List.takeWhile_append_of_pos (List.all_eq_true.mp hds)]
      cases rest with
      | nil => simp
      | cons c rest => rw [List.takeWhile_cons_of_neg (by simp [hstops c rfl]), List.append_nil]
    have hdrop : (ds ++ rest).dropWhile Char.isDigit = rest := by
      rw [List.dropWhile_append_of_pos (List.all_eq_true.mp hds)]
      cases rest with
      | nil => rfl
      | cons c rest => rw [List.dropWhile_cons_of_neg (by simp [hstops c rfl])]
    have hread : Reads digitRun (d :: (ds ++ rest)) (d :: (ds ++ rest).takeWhile Char.isDigit)
        ((ds ++ rest).dropWhile Char.isDigit) := by
      refine ⟨Nat.lt_succ_of_le (List.dropWhile_sublist _).length_le, ?_⟩
      rw [digitRun, if_pos hd]
    rwa [htake, hdrop] at hread

theorem reads_wholeDigits_iff : Reads wholeDigits cs ds rest ↔
    IsWhole ds ∧ StopsDigits rest ∧ cs = ds ++ rest := by
  constructor
  · intro h
    obtain ⟨digits, mid, hrun, hnext⟩ := h.of_bind
    obtain ⟨hdigits, hstops, hcs⟩ := reads_digitRun_iff.mp hrun
    split at hnext
    · exact hnext.not_fail.elim
    · next hzero =>
      obtain ⟨rfl, rfl⟩ := hnext.of_ret
      refine ⟨⟨hdigits, fun hhead => ?_⟩, hstops, hcs⟩
      exact Decidable.byContradiction fun hlength => hzero ⟨hhead, hlength⟩
  · rintro ⟨⟨hdigits, hzero⟩, hstops, hcs⟩
    refine (reads_digitRun_iff.mpr ⟨hdigits, hstops, hcs⟩).bind ?_
    rw [if_neg fun h => h.2 (hzero h.1)]
    exact readsTail_ret ds rest

theorem IsDigits.exists_cons (h : IsDigits ds) : ∃ d r, ds = d :: r ∧ d.isDigit = true := by
  obtain ⟨hne, hall⟩ := h
  obtain ⟨d, r, rfl⟩ := List.exists_cons_of_ne_nil hne
  rw [List.all_cons, Bool.and_eq_true] at hall
  exact ⟨d, r, rfl, hall.1⟩

/-! ## Fractions and powers -/

theorem ReadsTail.fractionText (h : ReadsTail fractionDigits cs ds rest) :
    ∃ fraction, FractionText fraction ds ∧ cs = fraction ++ rest := by
  obtain ⟨shorter, h⟩ := h
  rw [fractionDigits] at h
  split at h
  · obtain ⟨_, mid, hpoint, hrun⟩ := (ReadsTail.of_toTail ⟨shorter, h⟩).of_andThen
    obtain ⟨hdigits, -, rfl⟩ := reads_digitRun_iff.mp hrun
    exact ⟨'.' :: ds, .point hdigits, hpoint.of_expect⟩
  · obtain ⟨rfl, rfl⟩ := ReadsTail.of_ret ⟨shorter, h⟩
    exact ⟨[], .absent, rfl⟩

theorem FractionText.reads {fraction : List Char} (h : FractionText fraction ds)
    (hstops : StopsDigits rest) (hpoint : rest.head? ≠ some '.') :
    ReadsTail fractionDigits (fraction ++ rest) ds rest := by
  cases h with
  | absent =>
    obtain ⟨shorter, hread⟩ := readsTail_ret ([] : List Char) rest
    exact ⟨shorter, (if_neg hpoint).trans hread⟩
  | point hdigits =>
    have hread : Reads digitRun (ds ++ rest) ds rest :=
      reads_digitRun_iff.mpr ⟨hdigits, hstops, rfl⟩
    obtain ⟨shorter, hread⟩ := (hread.after_expect '.').toTail
    exact ⟨shorter, (if_pos rfl).trans hread⟩

theorem Reads.powerText {n : Int} {mark : Char} (hmark : mark = 'e' ∨ mark = 'E')
    (h : Reads exponentValue cs n rest) :
    ∃ power, PowerText (mark :: power) (some n) ∧ cs = power ++ rest := by
  obtain ⟨shorter, h⟩ := h
  rw [exponentValue] at h
  split at h
  · obtain ⟨_, mid, hsign, hvalue⟩ := Reads.of_andThen ⟨shorter, h⟩
    obtain ⟨ds, hrun, rfl⟩ := hvalue.of_map
    obtain ⟨hdigits, -, rfl⟩ := reads_digitRun_iff.mp hrun
    exact ⟨'-' :: ds, .minus hmark hdigits, hsign.of_expect⟩
  split at h
  · obtain ⟨_, mid, hsign, hvalue⟩ := Reads.of_andThen ⟨shorter, h⟩
    obtain ⟨ds, hrun, rfl⟩ := hvalue.of_map
    obtain ⟨hdigits, -, rfl⟩ := reads_digitRun_iff.mp hrun
    exact ⟨'+' :: ds, .plus hmark hdigits, hsign.of_expect⟩
  · obtain ⟨ds, hrun, rfl⟩ := Reads.of_map ⟨shorter, h⟩
    obtain ⟨hdigits, -, hcs⟩ := reads_digitRun_iff.mp hrun
    exact ⟨ds, .unsigned hmark hdigits, hcs⟩

theorem ReadsTail.powerText {power : Option Int} (h : ReadsTail exponent cs power rest) :
    ∃ written, PowerText written power ∧ cs = written ++ rest := by
  obtain ⟨shorter, h⟩ := h
  rw [exponent] at h
  split at h
  · next mark hmark =>
    obtain ⟨hhead, hmark⟩ := Option.filter_eq_some_iff.mp hmark
    obtain ⟨_, mid, hexpect, hvalue⟩ := (ReadsTail.of_toTail ⟨shorter, h⟩).of_andThen
    obtain ⟨n, hn, rfl⟩ := hvalue.of_map
    obtain ⟨written, hwritten, rfl⟩ := hn.powerText (of_decide_eq_true hmark)
    exact ⟨mark :: written, hwritten, hexpect.of_expect⟩
  · obtain ⟨rfl, rfl⟩ := ReadsTail.of_ret ⟨shorter, h⟩
    exact ⟨[], .absent, rfl⟩

/-- The number behind the mark of a power is read, with its sign or without. -/
theorem PowerText.reads {written : List Char} {power : Option Int} (h : PowerText written power)
    (hends : EndsNumber rest) : ReadsTail exponent (written ++ rest) power rest := by
  have hrun : ∀ ds, IsDigits ds → Reads digitRun (ds ++ rest) ds rest := fun ds hdigits =>
    reads_digitRun_iff.mpr ⟨hdigits, hends.stopsDigits, rfl⟩
  have hmarked : ∀ {mark value n}, mark = 'e' ∨ mark = 'E' → Reads exponentValue value n rest →
      ReadsTail exponent (mark :: value) (some n) rest := by
    intro mark value n hmark hvalue
    obtain ⟨shorter, hread⟩ := ((hvalue.map some).after_expect mark).toTail
    refine ⟨shorter, ?_⟩
    rw [exponent, List.head?_cons, Option.filter_some, if_pos (decide_eq_true hmark)]
    exact hread
  cases h with
  | absent =>
    obtain ⟨shorter, hread⟩ := readsTail_ret (none : Option Int) rest
    have hnone : (rest.head?.filter fun c => c = 'e' ∨ c = 'E') = none := by
      rw [Option.filter_eq_none_iff]
      intro c hc
      obtain ⟨-, -, hlower, hupper⟩ := hends c hc
      simp [hlower, hupper]
    change ReadsTail exponent rest none rest
    refine ⟨shorter, ?_⟩
    rw [exponent, hnone]
    exact hread
  | unsigned hmark hdigits =>
    refine hmarked hmark ?_
    obtain ⟨shorter, hread⟩ := (hrun _ hdigits).map fun ds => (valueOfDigits ds : Int)
    obtain ⟨d, r, rfl, hd⟩ := hdigits.exists_cons
    have hminus : (d :: r ++ rest).head? ≠ some '-' := by
      rintro h
      cases h
      cases hd
    have hplus : (d :: r ++ rest).head? ≠ some '+' := by
      rintro h
      cases h
      cases hd
    exact ⟨shorter, ((if_neg hminus).trans (if_neg hplus)).trans hread⟩
  | @plus _ ds hmark hdigits =>
    refine hmarked hmark ?_
    obtain ⟨shorter, hread⟩ :=
      ((hrun _ hdigits).map fun ds => (valueOfDigits ds : Int)).after_expect '+'
    have hminus : ('+' :: (ds ++ rest)).head? ≠ some '-' := by
      rintro h
      cases h
    exact ⟨shorter, ((if_neg hminus).trans (if_pos rfl)).trans hread⟩
  | minus hmark hdigits =>
    refine hmarked hmark ?_
    obtain ⟨shorter, hread⟩ :=
      ((hrun _ hdigits).map fun ds => -(valueOfDigits ds : Int)).after_expect '-'
    exact ⟨shorter, (if_pos rfl).trans hread⟩

/-! ## Numbers -/

/-- A number that was read is written there. -/
theorem Reads.literal_isText {l : Literal} (h : Reads literal cs l rest) :
    ∃ v, l.IsText v ∧ cs = v ++ rest := by
  have hunsigned : ∀ {negative cs l}, Reads (unsignedLiteral negative) cs l rest →
      l.negative = negative ∧ ∃ fraction power, IsWhole l.whole ∧
        FractionText fraction l.fraction ∧ PowerText power l.exponent ∧
          cs = l.whole ++ (fraction ++ power) ++ rest := by
    intro negative cs l h
    obtain ⟨whole, r₁, hreadWhole, hnext⟩ := h.of_bind
    obtain ⟨fraction, r₂, hreadFraction, hnext⟩ := hnext.of_bind
    obtain ⟨power, r₃, hreadPower, hnext⟩ := hnext.of_bind
    obtain ⟨rfl, rfl⟩ := hnext.of_ret
    obtain ⟨power, hpower, rfl⟩ := hreadPower.powerText
    obtain ⟨fraction, hfraction, rfl⟩ := hreadFraction.fractionText
    obtain ⟨hwhole, -, rfl⟩ := reads_wholeDigits_iff.mp hreadWhole
    exact ⟨rfl, fraction, power, hwhole, hfraction, hpower, by simp⟩
  obtain ⟨shorter, h⟩ := h
  rw [literal] at h
  split at h
  · obtain ⟨_, mid, hsign, hvalue⟩ := Reads.of_andThen ⟨shorter, h⟩
    obtain ⟨hnegative, fraction, power, hwhole, hfraction, hpower, rfl⟩ := hunsigned hvalue
    exact ⟨_, ⟨fraction, power, hwhole, hfraction, hpower, rfl⟩, by
      rw [hsign.of_expect, hnegative]
      rfl⟩
  · obtain ⟨hnegative, fraction, power, hwhole, hfraction, hpower, hcs⟩ := hunsigned ⟨shorter, h⟩
    exact ⟨_, ⟨fraction, power, hwhole, hfraction, hpower, rfl⟩, by
      rw [hcs, hnegative]
      rfl⟩

/-- A number begins with its sign or with a digit. -/
theorem Literal.IsText.exists_cons {l : Literal} {v : List Char} (h : l.IsText v) :
    ∃ c r, v = c :: r ∧ (c = '-' ∨ c.isDigit = true) := by
  obtain ⟨fraction, power, hwhole, -, -, rfl⟩ := h
  obtain ⟨d, r, hdr, hd⟩ := hwhole.1.exists_cons
  rw [hdr]
  cases l.negative with
  | true => exact ⟨'-', _, rfl, .inl rfl⟩
  | false => exact ⟨d, _, rfl, .inr hd⟩

/-- A number that is written is read, up to where it ends. -/
theorem Literal.IsText.reads {l : Literal} {v : List Char} (h : l.IsText v)
    (hends : EndsNumber rest) : Reads literal (v ++ rest) l rest := by
  obtain ⟨negative, whole, fractionDigits, exponent⟩ := l
  obtain ⟨fraction, power, hwhole, hfraction, hpower, rfl⟩ := h
  -- After the whole digits stand a point, a mark or what ends the number: no digit.
  have hafterFraction : StopsDigits (power ++ rest) ∧ (power ++ rest).head? ≠ some '.' := by
    cases hpower with
    | absent =>
      refine ⟨hends.stopsDigits, fun hpoint => ?_⟩
      exact (hends '.' hpoint).2.1 rfl
    | unsigned hmark | plus hmark | minus hmark =>
      constructor
      · rintro c hc
        cases hc
        rcases hmark with rfl | rfl <;> rfl
      · rintro hc
        cases hc
        rcases hmark with h | h <;> cases h
  have hafterWhole : StopsDigits (fraction ++ (power ++ rest)) := by
    cases hfraction with
    | absent => exact hafterFraction.1
    | point hdigits =>
      rintro c hc
      cases hc
      rfl
  have hunsigned : ∀ negative, Reads (unsignedLiteral negative)
      (whole ++ (fraction ++ (power ++ rest))) ⟨negative, whole, fractionDigits, exponent⟩
      rest := by
    intro negative
    refine (reads_wholeDigits_iff.mpr ⟨hwhole, hafterWhole, rfl⟩).bind ?_
    refine (hfraction.reads hafterFraction.1 hafterFraction.2).bind ?_
    exact (hpower.reads hends).bind (readsTail_ret _ rest)
  have hcs : (whole ++ (fraction ++ power)) ++ rest = whole ++ (fraction ++ (power ++ rest)) := by
    simp
  cases negative with
  | true =>
    obtain ⟨shorter, hread⟩ := (hunsigned true).after_expect '-'
    change Reads literal ('-' :: ((whole ++ (fraction ++ power)) ++ rest)) _ rest
    rw [hcs]
    exact ⟨shorter, (if_pos rfl).trans hread⟩
  | false =>
    obtain ⟨shorter, hread⟩ := hunsigned false
    obtain ⟨d, r, rfl, hd⟩ := hwhole.1.exists_cons
    have hminus : (d :: r ++ (fraction ++ (power ++ rest))).head? ≠ some '-' := by
      rintro h
      cases h
      cases hd
    change Reads literal ((d :: r ++ (fraction ++ power)) ++ rest) _ rest
    rw [hcs]
    exact ⟨shorter, (if_neg hminus).trans hread⟩

/-! ## Integers -/

/-- Only the number zero begins with the digit zero. -/
theorem eq_zero_of_head?_toDigits {n : Nat} (h : (Nat.toDigits 10 n).head? = some '0') : n = 0 := by
  induction n using Nat.strongRecOn with
  | _ n ih =>
    by_cases hn : n < 10
    · rw [Nat.toDigits_of_lt_base hn] at h
      have hdigits : ∀ k < 10, [k.digitChar].head? = some '0' → k = 0 := by decide
      exact hdigits n hn h
    · rw [Nat.toDigits_of_base_le (by decide) (Nat.le_of_not_lt hn),
        List.head?_append_of_ne_nil _ Nat.toDigits_ne_nil] at h
      have hzero := ih (n / 10) (by omega) h
      omega

theorem isWhole_toDigits (n : Nat) : IsWhole (Nat.toDigits 10 n) := by
  refine ⟨⟨Nat.toDigits_ne_nil, List.all_eq_true.mpr fun _ hc => ?_⟩, fun hhead => ?_⟩
  · exact Nat.isDigit_of_mem_toDigits (by decide) (by decide) hc
  · rw [eq_zero_of_head?_toDigits hhead]
    rfl

theorem valueOfDigits_toDigits (n : Nat) : valueOfDigits (Nat.toDigits 10 n) = n :=
  Nat.ofDigitChars_toDigits (by decide) (by decide)

/-- An integer of 64 bits is written as a literal that stands for it. -/
theorem exists_literal_of_int {n : Int} (hlow : -(Nat.pow 2 63 : Int) ≤ n)
    (hhigh : n < Nat.pow 2 64) :
    ∃ l : Literal, l.IsText (toString n).toList ∧ l.number? = some (.integer n) := by
  cases n with
  | ofNat k =>
    refine ⟨⟨false, Nat.toDigits 10 k, [], none⟩,
      ⟨[], [], isWhole_toDigits k, .absent, .absent, ?_⟩, ?_⟩
    · change (String.ofList (Nat.toDigits 10 k)).toList = _
      simp
    · have hk : k < Nat.pow 2 64 := Int.ofNat_lt.mp hhigh
      simp [Literal.number?, valueOfDigits_toDigits, hk]
  | negSucc k =>
    refine ⟨⟨true, Nat.toDigits 10 (k + 1), [], none⟩,
      ⟨[], [], isWhole_toDigits (k + 1), .absent, .absent, ?_⟩, ?_⟩
    · change ("-" ++ String.ofList (Nat.toDigits 10 (k + 1))).toList = _
      simp
    · have hk : k + 1 ≤ Nat.pow 2 63 := by
        rw [Int.negSucc_eq] at hlow
        omega
      simp [Literal.number?, valueOfDigits_toDigits, hk]
      omega

theorem Number.text_integer (n : Int) : (Number.integer n).text = toString n := by
  cases n with
  | ofNat k => rfl
  | negSucc k =>
    rw [Number.text, if_pos (Int.negSucc_lt_zero k)]
    rfl

end PlayerText.Json
