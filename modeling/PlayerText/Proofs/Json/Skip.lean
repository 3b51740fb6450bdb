import PlayerText.Proofs.Json.Literal
import PlayerText.Proofs.Json.Spelling
import PlayerText.Proofs.Json.Value

/-!
# Values that are skipped

Whatever is a value in writing is skipped, exactly to its end: however deep its containers are
nested, whatever its strings name and whatever its numbers amount to. The walk keeps the containers
around the place on a list, so the induction over a value says what is read behind it, up to the end
of the outermost of them.

* `opens?_eq_none`, `opens?_opening`: whether a container begins.
* `Reads.skipFrom_scalar`, `Reads.skipFrom_empty`, `Reads.skipFrom_row`,
  `ReadsTail.skipAfter_comma`, `ReadsTail.skipAfter_close`: the steps of the walk.
* `EndsNumber.of_mark`, `ValueText.exists_cons`: what stands at the end of a value and at its
  beginning.
* `ValueText.skipFrom`, `ValueText.skip`: a value in writing is skipped.
-/

namespace PlayerText.Json

variable {cs rest mid inside next : List Char} {c : Char} {kind : Container}
  {around : List Container}

/-! ## The walk -/

/-- Where another character stands, the one that is asked for is not read. -/
theorem exists_spaced_expect_error (h : (skipSpace cs).head? ≠ some c) :
    ∃ fault, spaced (expect c) cs = .error fault := by
  cases hread : spaced (expect c) cs with
  | error fault => exact ⟨fault, rfl⟩
  | ok r =>
    refine absurd ?_ h
    rw [(reads_spaced_iff.mp ⟨r.shorter, hread⟩).of_expect]
    rfl

theorem opens?_eq_none (h : ∀ kind : Container, (skipSpace cs).head? ≠ some kind.opening) :
    opens? cs = none := by
  obtain ⟨_, hbracket⟩ := exists_spaced_expect_error (h .array)
  obtain ⟨_, hbrace⟩ := exists_spaced_expect_error (h .object)
  change spaced (expect '[') cs = _ at hbracket
  change spaced (expect '\x7b') cs = _ at hbrace
  rw [opens?, hbracket, hbrace]

theorem opens?_opening (space : Space) (kind : Container) (rest : List Char) :
    ∃ shorter, opens? (space.1 ++ kind.opening :: rest) = some ⟨kind, rest, shorter⟩ := by
  cases kind with
  | array =>
    obtain ⟨shorter, hbracket⟩ := (reads_expect '[' rest).spaced space.2 (by decide)
    refine ⟨shorter, ?_⟩
    change opens? (space.1 ++ '[' :: rest) = _
    rw [opens?, hbracket]
    rfl
  | object =>
    obtain ⟨shorter, hbrace⟩ := (reads_expect '\x7b' rest).spaced space.2 (by decide)
    have hother : (skipSpace (space.1 ++ '\x7b' :: rest)).head? ≠ some '[' := by
      rw [skipSpace_append_cons space.2 (by decide), List.head?_cons, Ne, Option.some.injEq]
      decide
    obtain ⟨_, hbracket⟩ := exists_spaced_expect_error hother
    refine ⟨shorter, ?_⟩
    change opens? (space.1 ++ '\x7b' :: rest) = _
    rw [opens?, hbracket, hbrace]
    rfl

theorem Reads.skipFrom_scalar (hopens : opens? cs = none) (h : Reads skipScalar cs () mid)
    (hafter : ReadsTail (skipAfter around) mid () rest) : Reads (skipFrom around) cs () rest := by
  obtain ⟨shorter, hscalar⟩ := h
  obtain ⟨shorter', hafter⟩ := hafter
  refine ⟨by omega, ?_⟩
  rw [skipFrom, hopens, hscalar]
  change (skipAfter around mid >>= _) = _
  rw [hafter]
  rfl

theorem Reads.skipFrom_empty (hopens : ∃ shorter, opens? cs = some ⟨kind, inside, shorter⟩)
    (h : Reads (Json.spaced (expect kind.close)) inside () mid)
    (hafter : ReadsTail (skipAfter around) mid () rest) : Reads (skipFrom around) cs () rest := by
  obtain ⟨shorter, hopens⟩ := hopens
  obtain ⟨shorter', hcloses⟩ := closes?_eq_some_iff.mpr h
  obtain ⟨shorter'', hafter⟩ := hafter
  refine ⟨by omega, ?_⟩
  rw [skipFrom, hopens]
  dsimp only
  rw [hcloses]
  change (skipAfter around mid >>= _) = _
  rw [hafter]
  rfl

theorem Reads.skipFrom_row (hopens : ∃ shorter, opens? cs = some ⟨kind, inside, shorter⟩)
    (hcloses : closes? kind.close inside = none) (hname : ReadsTail (skipName kind) inside () mid)
    (h : Reads (skipFrom (kind :: around)) mid () rest) : Reads (skipFrom around) cs () rest := by
  obtain ⟨shorter, hopens⟩ := hopens
  obtain ⟨shorter', hname⟩ := hname
  obtain ⟨shorter'', h⟩ := h
  refine ⟨by omega, ?_⟩
  rw [skipFrom, hopens]
  dsimp only
  rw [hcloses, hname]
  change (skipFrom (kind :: around) mid >>= _) = _
  rw [h]
  rfl

theorem readsTail_skipAfter_nil (cs : List Char) : ReadsTail (skipAfter []) cs () cs :=
  ⟨Nat.lt_succ_self _, by rw [skipAfter]⟩

/-- Another value follows in the same container. -/
theorem ReadsTail.skipAfter_comma (hmark : Reads (separator kind.close) cs true mid)
    (hname : ReadsTail (skipName kind) mid () next)
    (h : Reads (skipFrom (kind :: around)) next () rest) :
    ReadsTail (skipAfter (kind :: around)) cs () rest := by
  obtain ⟨shorter, hmark⟩ := hmark
  obtain ⟨shorter', hname⟩ := hname
  obtain ⟨shorter'', h⟩ := h
  refine ⟨by omega, ?_⟩
  rw [skipAfter, hmark]
  change (skipName kind mid >>= _) = _
  rw [hname]
  change (skipFrom (kind :: around) next >>= _) = _
  rw [h]
  rfl

/-- The innermost container ends. -/
theorem ReadsTail.skipAfter_close (hmark : Reads (separator kind.close) cs false mid)
    (h : ReadsTail (skipAfter around) mid () rest) :
    ReadsTail (skipAfter (kind :: around)) cs () rest := by
  obtain ⟨shorter, hmark⟩ := hmark
  obtain ⟨shorter', h⟩ := h
  refine ⟨by omega, ?_⟩
  rw [skipAfter, hmark]
  change (skipAfter around mid >>= _) = _
  rw [h]
  rfl

/-! ## The ends of a value -/

/-- A mark behind some space ends a number. -/
theorem EndsNumber.of_mark (space : Space) (hdigit : c.isDigit = false)
    (hother : c ≠ '.' ∧ c ≠ 'e' ∧ c ≠ 'E') (rest : List Char) :
    EndsNumber (space.1 ++ c :: rest) := by
  obtain ⟨_ | ⟨d, space⟩, hspace⟩ := space
  · rintro _ ⟨⟩
    exact ⟨hdigit, hother⟩
  · rintro _ ⟨⟩
    rw [List.all_cons, Bool.and_eq_true] at hspace
    have hd := hspace.1
    simp only [isSpace, Bool.or_eq_true, beq_iff_eq] at hd
    obtain ((rfl | rfl) | rfl) | rfl := hd <;> decide

theorem endsNumber_comma (space : Space) (rest : List Char) : EndsNumber (space.1 ++ ',' :: rest) :=
  .of_mark space (by decide) (by decide) rest

theorem endsNumber_close (space : Space) (kind : Container) (rest : List Char) :
    EndsNumber (space.1 ++ kind.close :: rest) := by
  cases kind <;> exact .of_mark space (by decide) (by decide) rest

/-- What is no container begins with no bracket and no space. -/
theorem ScalarText.exists_cons {v : List Char} (h : ScalarText v) : ∃ c r, v = c :: r ∧
    isSpace c = Bool.false ∧ ∀ kind : Container, c ≠ kind.close ∧ c ≠ kind.opening := by
  cases h with
  | null | true | false => exact ⟨_, _, rfl, rfl, by rintro (_ | _) <;> decide⟩
  | string hv =>
    obtain ⟨spelled, _, -, rfl⟩ := hv
    exact ⟨_, _, rfl, rfl, by rintro (_ | _) <;> decide⟩
  | number hv =>
    obtain ⟨c, r, rfl, hc⟩ := hv.exists_cons
    have hne : ∀ d : Char, d.isDigit = Bool.false → d ≠ '-' → c ≠ d := fun d => ne_of_number hc
    refine ⟨c, r, rfl, ?_, ?_⟩
    · simp [isSpace, hne ' ' (by decide) (by decide), hne '\t' (by decide) (by decide),
        hne '\n' (by decide) (by decide), hne '\r' (by decide) (by decide)]
    · rintro (_ | _) <;> exact ⟨hne _ (by decide) (by decide), hne _ (by decide) (by decide)⟩

/-- A value begins with a character that neither is space nor closes a container. -/
theorem ValueText.exists_cons {v : List Char} (h : ValueText v) :
    ∃ c r, v = c :: r ∧ isSpace c = false ∧ ∀ kind : Container, c ≠ kind.close := by
  cases h with
  | scalar hv =>
    obtain ⟨c, r, hcons, hc, hother⟩ := hv.exists_cons
    exact ⟨c, r, hcons, hc, fun kind => (hother kind).1⟩
  | empty kind | row kind =>
    refine ⟨kind.opening, _, rfl, ?_, ?_⟩
    · cases kind <;> decide
    · cases kind <;> rintro (_ | _) <;> decide

/-! ## Values -/

/-- What stands in front of a value in a container is skipped. -/
theorem NameText.reads {name : List Char} (h : NameText kind name) (rest : List Char) :
    ReadsTail (skipName kind) (name ++ rest) () rest := by
  cases h with
  | array => exact readsTail_ret () rest
  | @object before between _ hname =>
    obtain ⟨spelled, text, hspelled, rfl⟩ := hname
    have hstring : Reads looseString (spelled ++ '"' :: (between.1 ++ ':' :: rest)) ()
        (between.1 ++ ':' :: rest) := reads_looseString_iff.mpr ⟨spelled, text, hspelled, rfl⟩
    have hquote : Reads (spaced (expect '"')) (before.1 ++ '"' :: (spelled ++ '"' ::
        (between.1 ++ ':' :: rest))) () (spelled ++ '"' :: (between.1 ++ ':' :: rest)) :=
      (reads_expect '"' _).spaced before.2 (by decide)
    have hcolon : Reads (spaced (expect ':')) (between.1 ++ ':' :: rest) () rest :=
      (reads_expect ':' rest).spaced between.2 (by decide)
    have hread : ReadsTail (skipName .object) _ () rest :=
      Reads.toTail (hquote.andThen (hstring.andThen hcolon))
    simpa using hread

/-- What is no container is skipped as one piece. -/
theorem ScalarText.reads {v : List Char} (h : ScalarText v) (space : Space)
    (hends : EndsNumber rest) : Reads skipScalar (space.1 ++ (v ++ rest)) () rest := by
  obtain ⟨c, r, hv, hc, -⟩ := h.exists_cons
  have hspace : skipSpace (space.1 ++ (v ++ rest)) = v ++ rest := by
    rw [hv]
    exact skipSpace_append_cons space.2 hc (r ++ rest)
  rw [skipScalar, reads_spaced_iff, hspace]
  clear hv
  cases h with
  | null =>
    obtain ⟨shorter, hread⟩ := readsTail_keyword () ['u', 'l', 'l'] rest
    exact ⟨shorter, (if_pos rfl).trans hread⟩
  | true =>
    obtain ⟨shorter, hread⟩ := readsTail_keyword () ['r', 'u', 'e'] rest
    refine ⟨shorter, ?_⟩
    dsimp only [List.cons_append]
    rw [if_neg (by decide), if_pos rfl]
    exact hread
  | false =>
    obtain ⟨shorter, hread⟩ := readsTail_keyword () ['a', 'l', 's', 'e'] rest
    refine ⟨shorter, ?_⟩
    dsimp only [List.cons_append]
    rw [if_neg (by decide), if_neg (by decide), if_pos rfl]
    exact hread
  | string hv =>
    obtain ⟨spelled, text, hspelled, rfl⟩ := hv
    have hstring : Reads looseString (spelled ++ '"' :: rest) () rest :=
      reads_looseString_iff.mpr ⟨spelled, text, hspelled, rfl⟩
    obtain ⟨shorter, hread⟩ := hstring.afterHead '"'
    have hcs : '"' :: (spelled ++ ['"']) ++ rest = '"' :: (spelled ++ '"' :: rest) := by simp
    rw [hcs]
    refine ⟨shorter, ?_⟩
    dsimp only
    rw [if_neg (by decide), if_neg (by decide), if_neg (by decide), if_pos rfl]
    exact hread
  | number hv =>
    obtain ⟨d, r, rfl, hd⟩ := hv.exists_cons
    obtain ⟨shorter, hliteral⟩ := (hv.reads hends).map fun _ => ()
    have hread : looseNumber (d :: r ++ rest) = .ok ⟨(), rest, shorter⟩ := by
      rw [looseNumber, hliteral]
      rfl
    refine ⟨shorter, ?_⟩
    change (if d = 'n' then _ else _) = _
    rw [if_neg (ne_of_number hd (by decide) (by decide)),
      if_neg (ne_of_number hd (by decide) (by decide)),
      if_neg (ne_of_number hd (by decide) (by decide)),
      if_neg (ne_of_number hd (by decide) (by decide)), if_pos hd]
    exact hread

theorem ScalarText.skipFrom {v r : List Char} (h : ScalarText v) (space : Space)
    (hends : EndsNumber r) (hafter : ReadsTail (skipAfter around) r () rest) :
    Reads (Json.skipFrom around) (space.1 ++ (v ++ r)) () rest := by
  refine .skipFrom_scalar (opens?_eq_none fun kind => ?_) (h.reads space hends) hafter
  obtain ⟨c, tail, rfl, hc, hother⟩ := h.exists_cons
  rw [List.cons_append, skipSpace_append_cons space.2 hc, List.head?_cons, Ne, Option.some.injEq]
  exact (hother kind).2

/-- A row begins with no closing bracket. -/
theorem RowText.closes?_eq_none {row : List Char} (h : RowText kind row) (rest : List Char) :
    closes? kind.close (row ++ rest) = none := by
  have hbegins : ∀ {name v : List Char} (before : Space) (more : List Char), NameText kind name →
      ValueText v → closes? kind.close (name ++ (before.1 ++ (v ++ more))) = none := by
    intro name v before more hname hv
    cases hname with
    | array =>
      obtain ⟨c, r, rfl, hc, hclose⟩ := hv.exists_cons
      exact Json.closes?_eq_none before.2 hc (hclose .array) (r ++ more)
    | @object space _ _ hname =>
      obtain ⟨spelled, _, -, rfl⟩ := hname
      rw [List.append_assoc]
      exact Json.closes?_eq_none space.2 (by decide) (by decide) _
  cases h with
  | @last _ name v before behind hname hv =>
    have hrow : name ++ (before.1 ++ (v ++ behind.1)) ++ rest =
        name ++ (before.1 ++ (v ++ (behind.1 ++ rest))) := by simp
    rw [hrow]
    exact hbegins before _ hname hv
  | @cons _ name v row before behind hname hv _ =>
    have hrow : name ++ (before.1 ++ (v ++ (behind.1 ++ ',' :: row))) ++ rest =
        name ++ (before.1 ++ (v ++ (behind.1 ++ ',' :: (row ++ rest)))) := by simp
    rw [hrow]
    exact hbegins before _ hname hv

/-- A value is skipped, if what stands behind it is skipped up to the end of the outermost container
around it. -/
theorem ValueText.skipFrom {v r rest : List Char} (h : ValueText v) (around : List Container)
    (space : Space) (hends : EndsNumber r) (hafter : ReadsTail (skipAfter around) r () rest) :
    Reads (Json.skipFrom around) (space.1 ++ (v ++ r)) () rest := by
  -- The induction is on the value and its rows; of a row, the walk first meets a name and then a
  -- value.
  refine @ValueText.rec
    (fun v _ => ∀ around (space : Space) r, EndsNumber r → ReadsTail (skipAfter around) r () rest →
      Reads (Json.skipFrom around) (space.1 ++ (v ++ r)) () rest)
    (fun kind row _ => ∀ around r, ReadsTail (skipAfter around) r () rest →
      ∃ mid, ReadsTail (skipName kind) (row ++ kind.close :: r) () mid ∧
        Reads (Json.skipFrom (kind :: around)) mid () rest)
    ?scalar ?empty ?row ?last ?cons v h around space r hends hafter
  case scalar => exact fun hv _ space _ hends hafter => hv.skipFrom space hends hafter
  case empty =>
    intro kind inside around space r _ hafter
    have hclose : Reads (spaced (expect kind.close)) (inside.1 ++ kind.close :: r) () r :=
      (reads_expect kind.close r).spaced inside.2 (by cases kind <;> decide)
    simpa using Reads.skipFrom_empty (opens?_opening space kind _) hclose hafter
  case row =>
    intro kind row hrow ih around space r _ hafter
    obtain ⟨mid, hname, hvalue⟩ := ih around r hafter
    simpa using
      Reads.skipFrom_row (opens?_opening space kind _) (hrow.closes?_eq_none _) hname hvalue
  case last =>
    intro kind name v before behind hname _ ih around r hafter
    have hclose : Reads (separator kind.close) (behind.1 ++ kind.close :: r) false r :=
      reads_separator_close behind.2 (by cases kind <;> decide) (by cases kind <;> decide) r
    have hvalue := ih (kind :: around) before _ (endsNumber_close behind kind r)
      (.skipAfter_close hclose hafter)
    refine ⟨_, ?_, hvalue⟩
    simpa using hname.reads (before.1 ++ (v ++ (behind.1 ++ kind.close :: r)))
  case cons =>
    intro kind name v row before behind hname _ _ ih ihrow around r hafter
    obtain ⟨mid, hnext, hothers⟩ := ihrow around r hafter
    have hcomma : Reads (separator kind.close) (behind.1 ++ ',' :: (row ++ kind.close :: r)) true
        (row ++ kind.close :: r) := reads_separator_comma behind.2 kind.close _
    have hvalue := ih (kind :: around) before _ (endsNumber_comma behind _)
      (.skipAfter_comma hcomma hnext hothers)
    refine ⟨_, ?_, hvalue⟩
    simpa using hname.reads (before.1 ++ (v ++ (behind.1 ++ ',' :: (row ++ kind.close :: r))))

/-- A value is skipped exactly to its end. -/
theorem ValueText.skip {v rest : List Char} (h : ValueText v) (space : Space)
    (hends : EndsNumber rest) : Reads Json.skip (space.1 ++ (v ++ rest)) () rest :=
  h.skipFrom [] space hends (readsTail_skipAfter_nil rest)

end PlayerText.Json
