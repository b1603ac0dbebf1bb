/-
  PropertyList.Proofs.Json.Literal

  What the numbers in JSON text are read as.  Integers are taken only if they have few
  digits.  A number with a point or an exponent stands for a decimal, and is read as
  that decimal, rounded; so it is always a number, and finite if it is not too large.
-/
import PropertyList.Proofs.Json.Number
import PropertyList.Proofs.Number.Range

namespace PropertyList.Json

/-! ## Pieces of numbers -/

theorem exists_of_isDigit {c : CodePoint} (h : isDigit c = true) :
    ∃ d : Char, c = .scalar d ∧ d.isDigit = true := by
  cases c with
  | scalar d => exact ⟨d, rfl, isDigit_scalar.symm.trans h⟩
  | surrogate k =>
    have hle := of_decide_eq_true (Bool.and_eq_true_iff.mp h).2
    rw [CodePoint.toNat] at hle
    omega

/-- A text of digits is a text of characters. -/
theorem exists_ofChars_of_isDigit {t : Text} (h : ∀ c ∈ t, isDigit c = true) :
    ∃ cs, t = Text.ofChars cs ∧ ∀ c ∈ cs, c.isDigit = true := by
  induction t with
  | nil => exact ⟨[], rfl, List.forall_mem_nil _⟩
  | cons c t ih =>
    obtain ⟨hc, ht⟩ := List.forall_mem_cons.mp h
    obtain ⟨d, rfl, hd⟩ := exists_of_isDigit hc
    obtain ⟨cs, rfl, hcs⟩ := ih ht
    exact ⟨d :: cs, rfl, List.forall_mem_cons.mpr ⟨hd, hcs⟩⟩

section

variable {s ds rest : Text}

/-- The digits at the front of a text. -/
theorem exists_of_takeDigits (h : takeDigits s = (ds, rest)) :
    ∃ cs, s = Text.ofChars cs ++ rest ∧ ds = Text.ofChars cs ∧ ∀ c ∈ cs, c.isDigit = true := by
  rw [takeDigits, List.span_eq_takeWhile_dropWhile] at h
  obtain ⟨rfl, rfl⟩ := Prod.mk.inj h
  obtain ⟨cs, hcs, hdigits⟩ :=
    @exists_ofChars_of_isDigit (s.takeWhile isDigit) fun c hc => List.mem_takeWhile_imp hc
  refine ⟨cs, ?_, hcs, hdigits⟩
  rw [← hcs, List.takeWhile_append_dropWhile]

/-- The digits behind a digit are some. -/
theorem takeDigits_ne_nil {c : CodePoint} (hc : isDigit c = true)
    (h : takeDigits (c :: s) = (ds, rest)) : ds ≠ [] := by
  rw [takeDigits, List.span_eq_takeWhile_dropWhile, List.takeWhile_cons_of_pos hc] at h
  obtain ⟨rfl, -⟩ := Prod.mk.inj h
  exact List.cons_ne_nil _ _

/-- The digits in front of a point. -/
theorem exists_of_takeWhole? (h : takeWhole? s = some (ds, rest)) :
    ∃ cs, s = Text.ofChars cs ++ rest ∧ ds = Text.ofChars cs ∧ IsWhole cs := by
  cases s with
  | nil => cases h
  | cons c s =>
    rw [takeWhole?] at h
    split at h
    · next hzero =>
      obtain ⟨rfl, rfl⟩ := Prod.mk.inj (Option.some.inj h)
      rw [hzero]
      exact ⟨['0'], rfl, rfl, isWhole_zero⟩
    · next hzero =>
      split at h
      · next hc =>
        have htake := Option.some.inj h
        have hne := takeDigits_ne_nil hc htake
        obtain ⟨cs, hs, rfl, hcs⟩ := exists_of_takeDigits htake
        refine ⟨cs, hs, rfl, hcs, fun e => hne (by rw [e]; rfl), ?_⟩
        -- digits that start with zero start as the text does
        rintro u rfl
        exact absurd (List.cons.inj hs).1 hzero
      · cases h

/-- A point with digits behind it, or neither. -/
inductive IsPoint : List Char → Prop where
  | nil : IsPoint []
  | digits {ds : List Char} (h : ∀ c ∈ ds, c.isDigit = true) (hne : ds ≠ []) : IsPoint ('.' :: ds)

/-- The point is taken with digits or not at all. -/
theorem exists_of_takePoint (h : takePoint s = (ds, rest)) :
    ∃ cs, s = Text.ofChars cs ++ rest ∧ ds = Text.ofChars cs ∧ IsPoint cs := by
  have hnone (h : (([], s) : Text × Text) = (ds, rest)) :
      ∃ cs, s = Text.ofChars cs ++ rest ∧ ds = Text.ofChars cs ∧ IsPoint cs := by
    obtain ⟨rfl, rfl⟩ := Prod.mk.inj h
    exact ⟨[], rfl, rfl, .nil⟩
  rw [takePoint.eq_def] at h
  split at h
  · next c d u =>
    split at h
    · next hpoint =>
      generalize htake : takeDigits (d :: u) = taken at h
      obtain ⟨digits, rest'⟩ := taken
      have hne := takeDigits_ne_nil hpoint.2 htake
      obtain ⟨cs, hu, rfl, hcs⟩ := exists_of_takeDigits htake
      obtain ⟨rfl, rfl⟩ := Prod.mk.inj h
      rw [hpoint.1, hu]
      exact ⟨'.' :: cs, rfl, rfl, .digits hcs fun e => hne (by rw [e]; rfl)⟩
    · exact hnone h
  · exact hnone h

/-- The sign of an exponent, if it has one. -/
theorem exists_of_sign {t u sign : Text}
    (h : (match t with
      | .scalar '+' :: u => ([.scalar '+'], u)
      | .scalar '-' :: u => ([.scalar '-'], u)
      | t => ([], t)) = (sign, u)) :
    ∃ cs, t = Text.ofChars cs ++ u ∧ sign = Text.ofChars cs ∧ cs ∈ [[], ['+'], ['-']] := by
  split at h
  · obtain ⟨rfl, rfl⟩ := Prod.mk.inj h
    exact ⟨['+'], rfl, rfl, by simp⟩
  · obtain ⟨rfl, rfl⟩ := Prod.mk.inj h
    exact ⟨['-'], rfl, rfl, by simp⟩
  · obtain ⟨rfl, rfl⟩ := Prod.mk.inj h
    exact ⟨[], rfl, rfl, by simp⟩

/-- An exponent is taken as a whole or not at all. -/
theorem exists_of_takeExponent (h : takeExponent s = (ds, rest)) :
    ∃ cs, s = Text.ofChars cs ++ rest ∧ ds = Text.ofChars cs ∧ IsTail cs := by
  -- without a letter or without digits, nothing is taken
  have hnone (h : (([], s) : Text × Text) = (ds, rest)) :
      ∃ cs, s = Text.ofChars cs ++ rest ∧ ds = Text.ofChars cs ∧ IsTail cs := by
    obtain ⟨rfl, rfl⟩ := Prod.mk.inj h
    exact ⟨[], rfl, rfl, .nil⟩
  rw [takeExponent.eq_def] at h
  split at h
  · next c t =>
    split at h
    · next hletter =>
      split at h
      next sign u hsign =>
      obtain ⟨signChars, rfl, rfl, hsigns⟩ := exists_of_sign hsign
      split at h
      · exact hnone h
      · next hne htake =>
        obtain ⟨cs, rfl, rfl, hcs⟩ := exists_of_takeDigits htake
        obtain ⟨rfl, rfl⟩ := Prod.mk.inj h
        obtain ⟨letter, rfl, hchar⟩ : ∃ letter : Char, c = .scalar letter ∧
            (letter = 'e' ∨ letter = 'E') := by
          rcases hletter with rfl | rfl
          · exact ⟨'e', rfl, .inl rfl⟩
          · exact ⟨'E', rfl, .inr rfl⟩
        refine ⟨letter :: (signChars ++ cs), ?_, ?_,
          .exponent hchar hsigns hcs fun e => hne (by rw [e]; rfl)⟩
        · rw [Text.ofChars_cons, Text.ofChars_append, List.cons_append, List.append_assoc]
        · rw [Text.ofChars_cons, Text.ofChars_append]
          rfl
    · exact hnone h
  · exact hnone h

end

/-! ## Decimals -/

/-- The decimal that a number without sign at the front of a text stands for. -/
def magnitude? (t : Text) : Option Decimal := do
  let (whole, t) ← takeWhole? t
  let (point, t) := takePoint t
  let (exponent, _) := takeExponent t
  Decimal.ofMagnitudeChars? (plainChars (whole ++ point ++ exponent))

/-- A text without the sign at its front. -/
def dropSign (s : Text) : Text :=
  match s with
  | .scalar '-' :: t => t
  | s => s

section

variable {s t rest : Text} {negative : Bool}

/-- A letter, perhaps a sign, and digits are an exponent. -/
theorem exists_takeExponent?_eq {letter : Char} (hletter : letter = 'e' ∨ letter = 'E')
    {sign digits : List Char} (hsign : sign ∈ [[], ['+'], ['-']])
    (hdigits : ∀ c ∈ digits, c.isDigit = true) (hne : digits ≠ []) :
    ∃ e, Binary64.takeExponent? (letter :: (sign ++ digits)) = some e := by
  have htake : Binary64.takeDigits (digits ++ []) = (digits, []) :=
    Binary64.takeDigits_append hdigits fun _ h => nomatch h
  rw [List.append_nil] at htake
  obtain ⟨c, rest, rfl⟩ := List.exists_cons_of_ne_nil hne
  have hunsigned : ∃ negative, takeSign (sign ++ c :: rest) = (negative, c :: rest) := by
    simp only [List.mem_cons, List.not_mem_nil, or_false] at hsign
    rcases hsign with rfl | rfl | rfl
    · have hc := hdigits c List.mem_cons_self
      exact ⟨false, takeSign_of_ne (by rintro rfl; cases hc) (by rintro rfl; cases hc)⟩
    · exact ⟨false, rfl⟩
    · exact ⟨true, rfl⟩
  obtain ⟨negative, hunsigned⟩ := hunsigned
  rw [Binary64.takeExponent?, if_pos hletter, hunsigned]
  simp only [htake]
  exact ⟨_, rfl⟩

theorem IsTail.exists_exponent {tail : List Char} (h : IsTail tail) :
    ∃ e, Binary64.takeExponent? tail = some e ∧ Binary64.NoDigit tail ∧ ∀ t, tail ≠ '.' :: t := by
  cases h with
  | nil => exact ⟨0, rfl, (fun _ h => nomatch h), fun _ h => nomatch h⟩
  | exponent hletter hsign hds hne =>
    obtain ⟨e, he⟩ := exists_takeExponent?_eq hletter hsign hds hne
    refine ⟨e, he, ?_, ?_⟩
    · rintro d ⟨⟩
      rcases hletter with rfl | rfl <;> rfl
    · rintro t ⟨⟩
      revert hletter
      decide

/-- The pieces of a number stand for a decimal. -/
theorem exists_ofMagnitudeChars?_eq {whole point tail : List Char} (hwhole : IsWhole whole)
    (hpoint : IsPoint point) (htail : IsTail tail) :
    ∃ d, Decimal.ofMagnitudeChars? (whole ++ point ++ tail) = some d := by
  have hwhole' : whole.isEmpty = false := Binary64.IsNumeral.isEmpty_eq_false hwhole.ne_nil
  obtain ⟨e, he, hdigit, hne⟩ := htail.exists_exponent
  unfold Decimal.ofMagnitudeChars?
  cases hpoint with
  | nil =>
    have hfraction : Binary64.takeFraction tail = ([], tail) := by
      rw [Binary64.takeFraction.eq_def]
      split
      · next t => exact absurd rfl (hne t)
      · rfl
    rw [List.append_nil, Binary64.takeDigits_append hwhole.digits hdigit]
    simp only [hfraction, hwhole', Bool.false_and, Bool.false_eq_true, if_false, he,
      Option.bind_eq_bind, Option.bind_some]
    exact ⟨_, rfl⟩
  | @digits cs hcs _ =>
    -- the digits of the whole part end at the point, those of the fraction at the exponent
    have hnodigit : Binary64.NoDigit ('.' :: (cs ++ tail)) := by
      rintro c ⟨⟩
      rfl
    rw [List.append_assoc, List.cons_append, Binary64.takeDigits_append hwhole.digits hnodigit]
    simp only [Binary64.takeFraction, Binary64.takeDigits_append hcs hdigit, hwhole',
      Bool.false_and, Bool.false_eq_true, if_false, he, Option.bind_eq_bind, Option.bind_some]
    exact ⟨_, rfl⟩

/-- What is taken behind a sign: digits alone as an integer, if they are few, and all else as a
    decimal, rounded. -/
theorem exists_pieces {l : Lexeme} (h : takeMagnitude? negative t = some (l, rest)) :
    ∃ whole point tail, t = Text.ofChars (whole ++ point ++ tail) ++ rest ∧
      IsWhole whole ∧ IsPoint point ∧ IsTail tail ∧
      magnitude? t = Decimal.ofMagnitudeChars? (whole ++ point ++ tail) ∧
      (l = .longInteger ∨
        (point = [] ∧ tail = [] ∧ whole.length ≤ digitLimit ∧
          l = .token (.int (if negative then -(Binary64.ofDigitChars whole : Int)
            else Binary64.ofDigitChars whole))) ∨
        (¬(point = [] ∧ tail = []) ∧ ∃ d,
          Decimal.ofMagnitudeChars? (whole ++ point ++ tail) = some d ∧
          l = .token (.real (d.toBinary64 negative)))) := by
  rw [takeMagnitude?] at h
  obtain ⟨⟨ds, u⟩, hds, h⟩ := Option.bind_eq_some_iff.mp h
  dsimp only at h
  generalize hps : takePoint u = pointed at h
  obtain ⟨ps, v⟩ := pointed
  dsimp only at h
  generalize hes : takeExponent v = ended at h
  obtain ⟨es, r⟩ := ended
  dsimp only at h
  obtain ⟨whole, ht, rfl, hwhole⟩ := exists_of_takeWhole? hds
  obtain ⟨point, hu, rfl, hpoint⟩ := exists_of_takePoint hps
  obtain ⟨tail, hv, rfl, htail⟩ := exists_of_takeExponent hes
  -- both readers of numerals cut the text in the same places
  have hmagnitude : magnitude? t = Decimal.ofMagnitudeChars? (whole ++ point ++ tail) := by
    rw [magnitude?, hds]
    simp only [Option.bind_eq_bind, Option.bind_some, hps, hes]
    rw [← Text.ofChars_append, ← Text.ofChars_append, plainChars_ofChars]
  have htext : t = Text.ofChars (whole ++ point ++ tail) ++ r := by
    rw [ht, hu, hv, Text.ofChars_append, Text.ofChars_append, List.append_assoc, List.append_assoc]
  split at h
  · next hempty =>
    -- neither a point nor an exponent: an integer, unless it is too long
    obtain ⟨hnil, hnil'⟩ := Bool.and_eq_true_iff.mp hempty
    have hpoint' := List.map_eq_nil_iff.mp (List.isEmpty_iff.mp hnil)
    have htail' := List.map_eq_nil_iff.mp (List.isEmpty_iff.mp hnil')
    split at h
    · obtain ⟨rfl, rfl⟩ := Prod.mk.inj (Option.some.inj h)
      exact ⟨whole, point, tail, htext, hwhole, hpoint, htail, hmagnitude, .inl rfl⟩
    · next hlength =>
      obtain ⟨rfl, rfl⟩ := Prod.mk.inj (Option.some.inj h)
      rw [Text.length_ofChars] at hlength
      rw [plainChars_ofChars]
      exact ⟨whole, point, tail, htext, hwhole, hpoint, htail, hmagnitude,
        .inr (.inl ⟨hpoint', htail', Nat.not_lt.mp hlength, rfl⟩)⟩
  · next hsome =>
    -- what has a point or an exponent is rounded
    obtain ⟨d, hd⟩ := exists_ofMagnitudeChars?_eq hwhole hpoint htail
    rw [← Text.ofChars_append, ← Text.ofChars_append, plainChars_ofChars,
      Binary64.ofMagnitudeChars?_eq_map, hd] at h
    obtain ⟨rfl, rfl⟩ := Prod.mk.inj (Option.some.inj h)
    refine ⟨whole, point, tail, htext, hwhole, hpoint, htail, hmagnitude,
      .inr (.inr ⟨?_, d, hd, rfl⟩)⟩
    rintro ⟨rfl, rfl⟩
    exact hsome rfl

theorem takeMagnitude?_cases {l : Lexeme} (h : takeMagnitude? negative t = some (l, rest)) :
    l = .longInteger ∨ (∃ n, l = .token (.int n) ∧ Integer.isPrintable n = true) ∨
      ∃ d, l = .token (.real (d.toBinary64 negative)) ∧ magnitude? t = some d := by
  obtain ⟨whole, point, tail, -, hwhole, -, -, hmagnitude, hlong | ⟨-, -, hlength, hint⟩ |
    ⟨-, d, hd, hreal⟩⟩ := exists_pieces h
  · exact .inl hlong
  · refine .inr (.inl ⟨_, hint, Integer.isPrintable_of_lt (k := whole.length) hlength ?_⟩)
    have hlt := Binary64.ofDigitChars_lt hwhole.digits
    split <;> omega
  · exact .inr (.inr ⟨d, hreal, hmagnitude.trans hd⟩)

theorem dropSign_of_ne (h : ∀ t, s ≠ .scalar '-' :: t) : dropSign s = s := by
  unfold dropSign
  split
  · next t => exact absurd rfl (h t)
  · rfl

/-- The sign is taken off, and then the rest is taken. -/
theorem exists_takeNumber?_eq (s : Text) :
    ∃ negative, takeNumber? s = takeMagnitude? negative (dropSign s) := by
  by_cases h : ∃ t, s = .scalar '-' :: t
  · obtain ⟨t, rfl⟩ := h
    exact ⟨true, rfl⟩
  · have hne : ∀ t, s ≠ .scalar '-' :: t := fun t e => h ⟨t, e⟩
    exact ⟨false, by rw [takeNumber?_of_ne hne, dropSign_of_ne hne]⟩

end

/-! ## Lexemes -/

/-- What is known of a lexeme that stands at the front of a text. -/
def Lexeme.IsRead (s : Text) : Lexeme → Prop
  | token (.int n) => Integer.isPrintable n = true
  | token (.real x) => ∃ d negative, magnitude? (dropSign s) = some d ∧ x = d.toBinary64 negative
  | _ => True

theorem isRead_of_takeNumber? {s rest : Text} {l : Lexeme} (h : takeNumber? s = some (l, rest)) :
    l.IsRead s := by
  obtain ⟨negative, hsign⟩ := exists_takeNumber?_eq s
  rw [hsign] at h
  rcases takeMagnitude?_cases h with rfl | ⟨n, rfl, hn⟩ | ⟨d, rfl, hd⟩
  · trivial
  · exact hn
  · exact ⟨d, negative, hd, rfl⟩

theorem isRead_takeLexeme (s : Text) : (takeLexeme s).1.IsRead s := by
  unfold takeLexeme
  split
  · trivial
  next c t =>
  split
  · next p hp =>
    -- punctuation is no number
    unfold punctuation? at hp
    split at hp
    case h_7 => cases hp
    all_goals
      obtain rfl := Option.some.inj hp
      trivial
  · split
    · split <;> trivial
    · split
      · next found hfound =>
        obtain ⟨⟨w, l⟩, hmem, hdrop⟩ := List.exists_of_findSome?_eq_some hfound
        obtain ⟨rest, -, rfl⟩ := Option.map_eq_some_iff.mp hdrop
        have hwords : ∀ e ∈ words, e.2.IsRead (c :: t) := by simp [words, Lexeme.IsRead]
        exact hwords _ hmem
      · cases hnumber : takeNumber? (c :: t) with
        | none => trivial
        | some found => exact isRead_of_takeNumber? hnumber

theorem isRead_of_mem_lexemes {fuel : Nat} {taken : List Located} {s : Text}
    (htaken : ∀ l ∈ taken, l.lexeme.IsRead l.start) :
    ∀ l ∈ lexemes fuel taken s, l.lexeme.IsRead l.start := by
  have hreverse {taken : List Located} (h : ∀ l ∈ taken, l.lexeme.IsRead l.start) :
      ∀ l ∈ taken.reverse, l.lexeme.IsRead l.start := fun l hl => h l (List.mem_reverse.mp hl)
  induction fuel generalizing taken s with
  | zero => exact hreverse htaken
  | succ fuel ih =>
    let found : Located := ⟨(takeLexeme (s.dropWhile isBlank)).1, s.dropWhile isBlank⟩
    have hnext : ∀ l ∈ found :: taken, l.lexeme.IsRead l.start :=
      List.forall_mem_cons.mpr ⟨isRead_takeLexeme _, htaken⟩
    rw [lexemes]
    split
    · exact hreverse htaken
    · dsimp only
      split
      · exact hreverse hnext
      · exact hreverse hnext
      · exact ih hnext

/-- The decimals that the numbers with a point or an exponent in a text stand for, without their
    signs. -/
def realLiterals (text : Text) : List Decimal :=
  (lexemes (text.length + 1) [] text).filterMap fun l =>
    match l.lexeme with
    | .token (.real _) => magnitude? (dropSign l.start)
    | _ => none

end PropertyList.Json
