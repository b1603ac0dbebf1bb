/-
  PropertyList.Proofs.Json.Number

  Numbers in JSON text.  A number is taken piece by piece: the digits in front of
  the point, the point with its digits, and the exponent.  Decimal text of an
  integer is the first piece alone; the text of a finite real always has another
  one, and so the two are told apart.
-/
import PropertyList.Json.Lexeme
import PropertyList.Proofs.Number.Digits
import PropertyList.Proofs.Number.RealText
import PropertyList.Proofs.Text.Coding

namespace PropertyList.Json

/-! ## Where a number ends -/

/-- Text with which a run of digits does not go on. -/
def NoDigit (s : Text) : Prop := ∀ c ∈ s.head?, isDigit c = false

/-- Text with which a number does not go on. -/
def Ends (s : Text) : Prop :=
  ∀ c ∈ s.head?, isDigit c = false ∧ c ≠ .scalar '.' ∧ c ≠ .scalar 'e' ∧ c ≠ .scalar 'E'

theorem ends_cons {c : CodePoint}
    (h : isDigit c = false ∧ c ≠ .scalar '.' ∧ c ≠ .scalar 'e' ∧ c ≠ .scalar 'E') (s : Text) :
    Ends (c :: s) := by
  intro d hd
  rw [← Option.some.inj hd]
  exact h

theorem Ends.noDigit {s : Text} (h : Ends s) : NoDigit s := fun c hc => (h c hc).1

theorem noDigit_cons {c : CodePoint} (h : isDigit c = false) (s : Text) : NoDigit (c :: s) := by
  intro d hd
  rw [← Option.some.inj hd]
  exact h

theorem isDigit_scalar {c : Char} : isDigit (.scalar c) = c.isDigit := by
  rw [Bool.eq_iff_iff, isDigit_iff, isDigit, Bool.and_eq_true, decide_eq_true_eq, decide_eq_true_eq]
  rfl

/-! ## Pieces -/

section Pieces

variable {cs : List Char} {rest : Text}

theorem takeDigits_ofChars (h : ∀ c ∈ cs, c.isDigit = true) (hrest : NoDigit rest) :
    takeDigits (Text.ofChars cs ++ rest) = (Text.ofChars cs, rest) := by
  refine span_append (fun a ha => ?_) hrest
  obtain ⟨c, hc, rfl⟩ := List.mem_map.mp ha
  rw [isDigit_scalar]
  exact h c hc

/-- Digits in front of a point: a lone zero, or digits that start with another one. -/
structure IsWhole (cs : List Char) : Prop where
  digits : ∀ c ∈ cs, c.isDigit = true
  ne_nil : cs ≠ []
  zero : ∀ s, cs = '0' :: s → s = []

theorem isWhole_digits (n : Nat) : IsWhole (Integer.digits n) where
  digits := fun _ => Integer.isDigit_of_mem_digits
  ne_nil := Integer.digits_ne_nil n
  zero := fun _ h => (Integer.digits_eq_of_head h).2

theorem IsWhole.take (h : IsWhole cs) (hrest : NoDigit rest) :
    takeWhole? (Text.ofChars cs ++ rest) = some (Text.ofChars cs, rest) := by
  obtain ⟨c, s, rfl⟩ := List.exists_cons_of_ne_nil h.ne_nil
  by_cases hc : c = '0'
  · subst hc
    rw [h.zero s rfl]
    rfl
  · have hzero : CodePoint.scalar c ≠ .scalar '0' := fun e => hc (CodePoint.scalar.inj e)
    have hstart : isDigit (.scalar c) = true := by
      rw [isDigit_scalar]
      exact h.digits c List.mem_cons_self
    have htake := takeDigits_ofChars h.digits hrest
    rw [Text.ofChars_cons, List.cons_append] at htake ⊢
    rw [takeWhole?, if_neg hzero, if_pos hstart, htake]

theorem takePoint_of_ne {s : Text} (h : ∀ c ∈ s.head?, c ≠ .scalar '.') : takePoint s = ([], s) := by
  match s with
  | [] => rfl
  | [c] => rfl
  | c :: d :: s =>
    have hc : ¬(c = .scalar '.' ∧ isDigit d = true) := fun e => h c rfl e.1
    rw [takePoint, if_neg hc]

theorem takePoint_ofChars (h : ∀ c ∈ cs, c.isDigit = true) (hne : cs ≠ []) (hrest : NoDigit rest) :
    takePoint (Text.ofChars ('.' :: cs) ++ rest) = (Text.ofChars ('.' :: cs), rest) := by
  obtain ⟨c, s, rfl⟩ := List.exists_cons_of_ne_nil hne
  have hc : isDigit (.scalar c) = true := by
    rw [isDigit_scalar]
    exact h c List.mem_cons_self
  have htake := takeDigits_ofChars h hrest
  simp only [Text.ofChars_cons, List.cons_append] at htake ⊢
  rw [takePoint, if_pos ⟨rfl, hc⟩, htake]

theorem takeExponent_of_ends {s : Text} (h : Ends s) : takeExponent s = ([], s) := by
  cases s with
  | nil => rfl
  | cons c s =>
    have hc : ¬(c = .scalar 'e' ∨ c = .scalar 'E') := by
      rintro (e | e)
      · exact (h c rfl).2.2.1 e
      · exact (h c rfl).2.2.2 e
    show (if c = .scalar 'e' ∨ c = .scalar 'E' then _ else (([] : Text), c :: s)) = _
    rw [if_neg hc]

/-- The letter of an exponent, perhaps a sign, and digits. -/
theorem takeExponent_ofChars {letter : Char} {sign : List Char}
    (hletter : letter = 'e' ∨ letter = 'E') (hsign : sign ∈ [[], ['+'], ['-']])
    (h : ∀ c ∈ cs, c.isDigit = true) (hne : cs ≠ []) (hrest : NoDigit rest) :
    takeExponent (Text.ofChars (letter :: (sign ++ cs)) ++ rest) =
      (Text.ofChars (letter :: (sign ++ cs)), rest) := by
  obtain ⟨c, s, rfl⟩ := List.exists_cons_of_ne_nil hne
  have hc := h c List.mem_cons_self
  have hplus : c ≠ '+' := by rintro rfl; cases hc
  have hminus : c ≠ '-' := by rintro rfl; cases hc
  have hletter' : CodePoint.scalar letter = .scalar 'e' ∨ CodePoint.scalar letter = .scalar 'E' :=
    hletter.imp (congrArg _) (congrArg _)
  have htake := takeDigits_ofChars h hrest
  simp only [List.mem_cons, List.not_mem_nil, or_false] at hsign
  -- each sign is a case of its own in the reader, and so is a digit in its place
  rcases hsign with rfl | rfl | rfl
  · simp only [Text.ofChars_cons, List.cons_append, List.nil_append] at htake ⊢
    simp [takeExponent, hletter, hplus, hminus, htake]
  · simp only [Text.ofChars_cons, List.cons_append, List.nil_append] at htake ⊢
    simp only [takeExponent, if_pos hletter', htake, List.cons_append, List.nil_append]
  · simp only [Text.ofChars_cons, List.cons_append, List.nil_append] at htake ⊢
    simp only [takeExponent, if_pos hletter', htake, List.cons_append, List.nil_append]

end Pieces

/-! ## Numerals of reals -/

/-- The end of a numeral: nothing, or an exponent. -/
inductive IsTail : List Char → Prop where
  | nil : IsTail []
  | exponent {letter : Char} {sign ds : List Char} (hletter : letter = 'e' ∨ letter = 'E')
      (hsign : sign ∈ [[], ['+'], ['-']]) (hds : ∀ c ∈ ds, c.isDigit = true) (hne : ds ≠ []) :
      IsTail (letter :: (sign ++ ds))

/-- A numeral of a real: it has a point, an exponent or both. -/
inductive IsReal : List Char → Prop where
  | pointed {whole part tail : List Char} (hwhole : IsWhole whole)
      (hpart : ∀ c ∈ part, c.isDigit = true) (hne : part ≠ []) (htail : IsTail tail) :
      IsReal (whole ++ '.' :: (part ++ tail))
  | plain {whole tail : List Char} (hwhole : IsWhole whole) (htail : IsTail tail) (hne : tail ≠ []) :
      IsReal (whole ++ tail)

section Reals

variable {tail s : List Char} {rest : Text}

namespace IsTail

theorem take (h : IsTail tail) (hrest : Ends rest) :
    takeExponent (Text.ofChars tail ++ rest) = (Text.ofChars tail, rest) := by
  cases h with
  | nil => exact takeExponent_of_ends hrest
  | exponent hletter hsign hds hne =>
    exact takeExponent_ofChars hletter hsign hds hne hrest.noDigit

theorem noDigit (h : IsTail tail) (hrest : Ends rest) : NoDigit (Text.ofChars tail ++ rest) := by
  cases h with
  | nil => exact hrest.noDigit
  | exponent hletter _ _ _ => exact noDigit_cons (by rcases hletter with rfl | rfl <;> decide) _

end IsTail

/-- A numeral starts with a digit. -/
theorem IsReal.exists_cons (h : IsReal s) : ∃ c t, s = c :: t ∧ c.isDigit = true := by
  cases h with
  | pointed hwhole _ _ _ =>
    obtain ⟨c, t, rfl⟩ := List.exists_cons_of_ne_nil hwhole.ne_nil
    exact ⟨c, _, rfl, hwhole.digits c List.mem_cons_self⟩
  | plain hwhole _ _ =>
    obtain ⟨c, t, rfl⟩ := List.exists_cons_of_ne_nil hwhole.ne_nil
    exact ⟨c, _, rfl, hwhole.digits c List.mem_cons_self⟩

end Reals

/-! ## Numbers -/

section Numbers

variable {s : List Char} {rest : Text}

theorem plainChars_ofChars (cs : List Char) : plainChars (Text.ofChars cs) = cs := by
  rw [plainChars, Text.ofChars, List.filterMap_map]
  exact List.filterMap_some

/-- What stands behind the sign of a number. -/
def takeMagnitude? (negative : Bool) (t : Text) : Option (Lexeme × Text) := do
  let (whole, t) ← takeWhole? t
  let (point, t) := takePoint t
  let (exponent, t) := takeExponent t
  if point.isEmpty && exponent.isEmpty then
    if whole.length > digitLimit then some (.longInteger, t) else
    let n : Int := Binary64.ofDigitChars (plainChars whole)
    some (.token (.int (if negative then -n else n)), t)
  else
    let x := Binary64.ofMagnitudeChars? negative (plainChars (whole ++ point ++ exponent))
    some (.token (.real (x.getD (.nan false))), t)

theorem takeNumber?_of_ne {s : Text} (h : ∀ t, s ≠ .scalar '-' :: t) :
    takeNumber? s = takeMagnitude? false s := by
  unfold takeNumber?
  split
  next negative u hsplit =>
    split at hsplit
    · exact absurd rfl (h _)
    · obtain ⟨rfl, rfl⟩ := Prod.mk.inj hsplit
      rfl

/-- The sign is taken off first, and digits do not start with one. -/
theorem takeNumber?_signed {c : Char} (hc : c.isDigit = true) (t : List Char) (negative : Bool) :
    takeNumber? (Text.ofChars (if negative then '-' :: c :: t else c :: t) ++ rest) =
      takeMagnitude? negative (Text.ofChars (c :: t) ++ rest) := by
  cases negative with
  | true => rfl
  | false =>
    refine takeNumber?_of_ne fun u e => ?_
    rw [CodePoint.scalar.inj (List.cons.inj e).1] at hc
    exact absurd hc (by decide)

/-- The digits of an integer are taken as its size. -/
theorem IsWhole.takeMagnitude? (h : IsWhole s) (hlength : s.length ≤ digitLimit)
    (hrest : Ends rest) (negative : Bool) : takeMagnitude? negative (Text.ofChars s ++ rest) =
      some (.token (.int (if negative then -(Binary64.ofDigitChars s : Int)
        else Binary64.ofDigitChars s)), rest) := by
  have hpoint : takePoint rest = ([], rest) := takePoint_of_ne fun c hc => (hrest c hc).2.1
  have hlength' : ¬(Text.ofChars s).length > digitLimit := by
    rw [Text.length_ofChars, gt_iff_lt, Nat.not_lt]
    exact hlength
  simp only [Json.takeMagnitude?, h.take hrest.noDigit, hpoint, takeExponent_of_ends hrest,
    Option.bind_eq_bind, Option.bind_some, List.isEmpty_nil, Bool.and_self, if_true,
    if_neg hlength', plainChars_ofChars]

theorem takeMagnitude?_digits {n : Nat} (hn : n < Nat.pow 10 digitLimit) (hrest : Ends rest)
    (negative : Bool) : takeMagnitude? negative (Text.ofChars (Integer.digits n) ++ rest) =
      some (.token (.int (if negative then -(n : Int) else n)), rest) := by
  have hlength := (Integer.length_digits_le_iff (by decide)).mpr hn
  rw [(isWhole_digits n).takeMagnitude? hlength hrest, Binary64.ofDigitChars_digits]

/-- A numeral of a real is taken as a whole. -/
theorem IsReal.takeMagnitude? (h : IsReal s) (hrest : Ends rest) {negative : Bool} {x : Binary64}
    (hx : Binary64.ofMagnitudeChars? negative s = some x) :
    takeMagnitude? negative (Text.ofChars s ++ rest) = some (.token (.real x), rest) := by
  cases h with
  | @pointed whole part tail hwhole hpart hne htail =>
    have hwhole' := hwhole.take
      (noDigit_cons (by decide : isDigit (.scalar '.') = false)
        (Text.ofChars part ++ (Text.ofChars tail ++ rest)))
    have hpoint := takePoint_ofChars hpart hne (htail.noDigit hrest)
    simp only [Text.ofChars_append, Text.ofChars_cons, List.cons_append, List.append_assoc]
      at hwhole' hpoint ⊢
    simp only [Json.takeMagnitude?, hwhole', hpoint, htail.take hrest, Option.bind_eq_bind,
      Option.bind_some, List.isEmpty_cons, Bool.false_and, Bool.false_eq_true, if_false]
    rw [← Text.ofChars_cons, ← Text.ofChars_append, ← Text.ofChars_append, plainChars_ofChars,
      List.append_assoc, List.cons_append, hx]
    rfl
  | @plain whole tail hwhole htail hne =>
    have hpoint : takePoint (Text.ofChars tail ++ rest) = ([], Text.ofChars tail ++ rest) := by
      apply takePoint_of_ne
      intro c hc
      cases htail with
      | nil => exact absurd rfl hne
      | exponent hletter _ _ _ =>
        rw [← Option.some.inj hc]
        rcases hletter with rfl | rfl <;> decide
    -- an exponent alone makes it a real
    have hsome : (Text.ofChars tail).isEmpty = false := by
      cases htail with
      | nil => exact absurd rfl hne
      | exponent _ _ _ _ => rfl
    rw [Text.ofChars_append, List.append_assoc]
    simp only [Json.takeMagnitude?, hwhole.take (htail.noDigit hrest), hpoint, htail.take hrest,
      Option.bind_eq_bind, Option.bind_some, hsome, Bool.and_false, Bool.false_eq_true, if_false]
    rw [List.append_nil, ← Text.ofChars_append, plainChars_ofChars, hx]
    rfl

/-- An integer is taken as itself. -/
theorem takeNumber?_decimal {n : Int} (hn : Integer.isPrintable n = true) (hrest : Ends rest) :
    takeNumber? (Text.ofChars (Integer.decimal n) ++ rest) = some (.token (.int n), rest) := by
  have hlt : n.natAbs < Nat.pow 10 digitLimit := of_decide_eq_true hn
  obtain ⟨c, t, hct⟩ := List.exists_cons_of_ne_nil (Integer.digits_ne_nil n.natAbs)
  have hc : c.isDigit = true := Integer.isDigit_of_mem_digits (hct ▸ List.mem_cons_self)
  have hdecimal : Integer.decimal n = if decide (n < 0) then '-' :: c :: t else c :: t := by
    simp only [Integer.decimal, hct, decide_eq_true_eq]
  rw [hdecimal, takeNumber?_signed hc, ← hct, takeMagnitude?_digits hlt hrest, Integer.signed_natAbs]

end Numbers

/-! ## The text of a real -/

section Text

variable {ds : List Char} {point : Int}

/-- Digits that are no lone zero start with another one, whatever stands behind them. -/
theorem IsWhole.append (h : IsWhole ds) (hne : ds ≠ ['0']) {es : List Char}
    (hes : ∀ c ∈ es, c.isDigit = true) : IsWhole (ds ++ es) where
  digits := fun c hc => (List.mem_append.mp hc).elim (h.digits c) (hes c)
  ne_nil := List.append_ne_nil_of_left_ne_nil h.ne_nil _
  zero := fun s hs => by
    obtain ⟨c, t, rfl⟩ := List.exists_cons_of_ne_nil h.ne_nil
    obtain ⟨rfl, -⟩ := List.cons.inj hs
    rw [h.zero t rfl] at hne
    exact absurd rfl hne

/-- Digits that are no lone zero start with another one, wherever they end. -/
theorem IsWhole.take_digits (h : IsWhole ds) (hne : ds ≠ ['0']) {n : Nat} (hn : 0 < n) :
    IsWhole (ds.take n) where
  digits := fun c hc => h.digits c (List.mem_of_mem_take hc)
  ne_nil := by
    intro e
    rcases List.take_eq_nil_iff.mp e with e | e
    · omega
    · exact h.ne_nil e
  zero := fun s hs => by
    obtain ⟨c, t, rfl⟩ := List.exists_cons_of_ne_nil h.ne_nil
    obtain ⟨m, rfl⟩ : ∃ m, n = m + 1 := ⟨n - 1, by omega⟩
    rw [List.take_succ_cons] at hs
    obtain ⟨rfl, -⟩ := List.cons.inj hs
    rw [h.zero t rfl] at hne
    exact absurd rfl hne

theorem isWhole_zero : IsWhole ['0'] where
  digits := fun _ => Binary64.isDigit_of_mem_zero
  ne_nil := List.cons_ne_nil _ _
  zero := fun _ h => (List.cons.inj h).2.symm

/-- One digit is a whole. -/
theorem isWhole_single {c : Char} (hc : c.isDigit = true) : IsWhole [c] where
  digits := List.forall_mem_singleton.mpr hc
  ne_nil := List.cons_ne_nil _ _
  zero := fun _ h => (List.cons.inj h).2.symm

/-- The layout of digits always has a point or an exponent; a lone zero stands in front of the
    point. -/
theorem isReal_layout (h : IsWhole ds) (hzero : ds = ['0'] → point = 1) :
    IsReal (Binary64.layout ds point) := by
  have hzeros (n : Nat) : ∀ c ∈ List.replicate n '0', c.isDigit = true :=
    fun c => Binary64.isDigit_of_mem_zeros
  unfold Binary64.layout
  split
  next hrange =>
    split
    next hsmall =>
      -- zero, the point, zeros and the digits
      rw [← List.append_nil (List.replicate point.natAbs '0' ++ ds)]
      refine .pointed isWhole_zero (fun c hc => ?_)
        (List.append_ne_nil_of_right_ne_nil _ h.ne_nil) .nil
      exact (List.mem_append.mp hc).elim (hzeros _ c) (h.digits c)
    next hpos =>
    have hpoint : 0 < point := by omega
    split
    next hlong =>
      -- the digits and zeros, the point and a zero
      refine @IsReal.pointed _ ['0'] [] ?_ (fun c => Binary64.isDigit_of_mem_zero)
        (List.cons_ne_nil _ _) .nil
      by_cases hds : ds = ['0']
      · rw [hzero hds, hds]
        exact isWhole_zero
      · exact h.append hds (hzeros _)
    next hshort =>
      -- the point between the digits
      have hds : ds ≠ ['0'] := by
        intro hds
        rw [hzero hds, hds] at hshort
        exact hshort (Nat.le_refl 1)
      rw [← List.append_nil (ds.drop point.natAbs)]
      refine .pointed (h.take_digits hds (by omega)) (fun c hc => h.digits c (List.mem_of_mem_drop hc))
        ?_ .nil
      intro hnil
      rw [List.drop_eq_nil_iff] at hnil
      exact hshort hnil
  next hrange =>
    -- one digit, perhaps a point and the others, and an exponent
    have htail : IsTail ('e' :: (if point - 1 < 0 then '-' else '+') ::
        Binary64.exponentDigits (point - 1).natAbs) := by
      refine @IsTail.exponent 'e' [if point - 1 < 0 then '-' else '+'] _ (.inl rfl) ?_
        (fun c => Binary64.isDigit_of_mem_exponentDigits)
        (Binary64.exponentDigits_ne_nil (point - 1).natAbs)
      split <;> decide
    show IsReal (Binary64.mantissa ds ++ _)
    obtain ⟨d, t, rfl⟩ := List.exists_cons_of_ne_nil h.ne_nil
    have hd : IsWhole [d] := isWhole_single (h.digits d List.mem_cons_self)
    cases t with
    | nil => exact .plain hd htail (List.cons_ne_nil _ _)
    | cons d' t =>
      exact .pointed hd (fun c hc => h.digits c (List.mem_cons_of_mem _ hc)) (List.cons_ne_nil _ _)
        htail

/-- The digits without the zeros at their end start as they did. -/
theorem isWhole_significantDigits (h : IsWhole ds) :
    IsWhole (Binary64.significantDigits ds) := by
  obtain ⟨k, hk⟩ := Binary64.exists_zeros ds
  refine ⟨fun c => Binary64.isDigit_of_mem_significantDigits h.digits,
    Binary64.significantDigits_ne_nil ds, fun s hs => ?_⟩
  rw [Binary64.significantDigits] at hs
  split at hs
  next => exact (List.cons.inj hs).2.symm
  next hsome =>
    rw [hs, List.cons_append] at hk
    exact (List.append_eq_nil_iff.mp (h.zero _ hk)).1

/-- The magnitude of a finite real is a numeral of a real. -/
theorem isReal_magnitudeText {x : Binary64} (hx : x.isFinite = true) : IsReal x.magnitudeText := by
  rw [Binary64.magnitudeText, if_pos hx]
  refine isReal_layout (isWhole_significantDigits (isWhole_digits _)) fun hds => if_pos ?_
  -- digits that come down to a lone zero stand for zero
  have hvalue := Binary64.positional_significantDigits (Integer.digits x.shortest.digits) 0
  have hlone : Binary64.positional ['0'] 0 = 0 := zero_mul _
  rw [hds, hlone, Binary64.positional, Binary64.ofDigitChars_digits] at hvalue
  have hpow : (10 : ℚ) ^ (0 - ((Integer.digits x.shortest.digits).length : Int)) ≠ 0 :=
    zpow_ne_zero _ (by norm_num)
  exact Nat.cast_eq_zero.mp ((mul_eq_zero.mp hvalue.symm).resolve_right hpow)

/-- A finite real is taken as itself. -/
theorem takeNumber?_real {x : Binary64} (hx : x.isFinite = true) {rest : Text}
    (hrest : Ends rest) :
    takeNumber? (Text.ofChars x.text ++ rest) = some (.token (.real x), rest) := by
  have hreal := isReal_magnitudeText hx
  have hread : Binary64.ofMagnitudeChars? x.isNegative x.magnitudeText = some x := by
    rw [(Binary64.isNumeral_magnitudeText hx).ofMagnitudeChars?_eq rfl]
    exact congrArg some (Binary64.shortest_toBinary64 hx)
  obtain ⟨c, t, htext, hc⟩ := hreal.exists_cons
  rw [Binary64.text_eq (Binary64.isNaN_of_isFinite hx), htext, takeNumber?_signed hc,
    ← htext]
  exact hreal.takeMagnitude? hrest hread

/-- The text of an integer or a finite real: digits, and what else there is, perhaps behind a minus
    sign. -/
def StartsNumber (s : List Char) : Prop :=
  ∃ c t, c.isDigit = true ∧ (s = c :: t ∨ s = '-' :: c :: t)

theorem startsNumber_decimal (n : Int) : StartsNumber (Integer.decimal n) := by
  obtain ⟨c, t, hct⟩ := List.exists_cons_of_ne_nil (Integer.digits_ne_nil n.natAbs)
  refine ⟨c, t, Integer.isDigit_of_mem_digits (hct ▸ List.mem_cons_self), ?_⟩
  rw [Integer.decimal, hct]
  split
  · exact .inr rfl
  · exact .inl rfl

theorem startsNumber_text {x : Binary64} (hx : x.isFinite = true) : StartsNumber x.text := by
  obtain ⟨c, t, htext, hc⟩ := (isReal_magnitudeText hx).exists_cons
  refine ⟨c, t, hc, ?_⟩
  rw [Binary64.text_eq (Binary64.isNaN_of_isFinite hx), htext]
  split
  · exact .inr rfl
  · exact .inl rfl

end Text

end PropertyList.Json
