/-
  PropertyList.Proofs.Json.Spelling

  Lexemes and the grammar.  A token that is taken off a text is spelled by what was in
  front (`exists_of_takeLexeme`), and what spells a token is taken off whole, if a number
  does not go on behind it (`SpellsToken.take`).
-/
import PropertyList.Proofs.Json.Grammar
import PropertyList.Proofs.Json.Literal

namespace PropertyList.Json

/-! ## Escapes -/

theorem toNat_codePoint {n : Nat} (h : n < 0x110000) : (codePoint n).toNat = n := by
  obtain ⟨c, hc⟩ : ∃ c, CodePoint.ofNat? n = some c := by
    rw [CodePoint.ofNat?]
    by_cases hvalid : n.isValidChar
    · rw [dif_pos hvalid]
      exact ⟨_, rfl⟩
    · rw [dif_neg hvalid]
      unfold Nat.isValidChar at hvalid
      rw [dif_pos (by omega)]
      exact ⟨_, rfl⟩
  rw [codePoint, hc]
  exact CodePoint.toNat_of_ofNat? hc

theorem codePoint_toNat (c : CodePoint) : codePoint c.toNat = c := by
  rw [codePoint, CodePoint.ofNat?_toNat]
  rfl

/-- A character is no half of a surrogate pair. -/
theorem isHigh_scalar (c : Char) : Utf16.isHigh (CodePoint.scalar c).toNat = false := by
  have hc := CodePoint.toNat_scalar_lt_or c
  rw [Utf16.isHigh, Bool.and_eq_false_iff, decide_eq_false_iff_not, decide_eq_false_iff_not]
  omega

theorem isLow_scalar (c : Char) : Utf16.isLow (CodePoint.scalar c).toNat = false := by
  have hc := CodePoint.toNat_scalar_lt_or c
  rw [Utf16.isLow, Bool.and_eq_false_iff, decide_eq_false_iff_not, decide_eq_false_iff_not]
  omega

theorem IsHex.lt {n : Nat} {w : List Char} (h : IsHex n w) : n < 0x10000 := by
  obtain ⟨ha, hb, hc, hd⟩ := h
  have := CodePoint.hexDigit?_lt ha
  have := CodePoint.hexDigit?_lt hb
  have := CodePoint.hexDigit?_lt hc
  have := CodePoint.hexDigit?_lt hd
  omega

theorem IsHex.take {n : Nat} {w : List Char} (h : IsHex n w) {rest : Text} (hrest : rest ≠ []) :
    takeHex? (Text.ofChars w ++ rest) = some (n, rest) := by
  obtain ⟨ha, hb, hc, hd⟩ := h
  obtain ⟨c, s, rfl⟩ := List.exists_cons_of_ne_nil hrest
  simp only [Text.ofChars_cons, Text.ofChars_nil, List.cons_append, List.nil_append, takeHex?, ha,
    hb, hc, hd, Option.bind_eq_bind, Option.bind_some]

theorem exists_of_takeHex? {s : List Char} {n : Nat} {rest : Text}
    (h : takeHex? (Text.ofChars s) = some (n, rest)) :
    ∃ w r, s = w ++ r ∧ rest = Text.ofChars r ∧ IsHex n w := by
  match s with
  | a :: b :: c :: d :: e :: r =>
    simp only [Text.ofChars_cons, takeHex?, Option.bind_eq_bind, Option.bind_eq_some_iff] at h
    obtain ⟨i, ha, j, hb, k, hc, l, hd, h⟩ := h
    obtain ⟨rfl, rfl⟩ := Prod.mk.inj (Option.some.inj h)
    exact ⟨[a, b, c, d], e :: r, rfl, rfl, .digits ha hb hc hd⟩
  | [] | [_] | [_, _] | [_, _, _] | [_, _, _, _] => cases h

/-! ## Units of strings -/

theorem exists_of_simpleEscape? {e c : CodePoint} (h : simpleEscape? e = some c) :
    ∃ letter d, e = .scalar letter ∧ c = .scalar d ∧ (letter, d) ∈ shortEscapes := by
  unfold simpleEscape? at h
  split at h
  case h_9 => cases h
  all_goals
    obtain rfl := Option.some.inj h
    exact ⟨_, _, rfl, rfl, by decide⟩

theorem simpleEscape?_of_mem {letter c : Char} (h : (letter, c) ∈ shortEscapes) :
    simpleEscape? (.scalar letter) = some (.scalar c) ∧ letter ≠ 'u' := by
  simp only [shortEscapes, List.mem_cons, Prod.mk.injEq, List.not_mem_nil, or_false] at h
  rcases h with ⟨rfl, rfl⟩ | ⟨rfl, rfl⟩ | ⟨rfl, rfl⟩ | ⟨rfl, rfl⟩ | ⟨rfl, rfl⟩ | ⟨rfl, rfl⟩ |
    ⟨rfl, rfl⟩ | ⟨rfl, rfl⟩ <;> exact ⟨rfl, by decide⟩

/-- What follows does not start with the escape of a second half. -/
def NoLow (s : Text) : Prop :=
  ∀ t n r, s = .scalar '\\' :: .scalar 'u' :: t → takeHex? t = some (n, r) → Utf16.isLow n = false

/-- A unit is taken alone, unless the two halves of a pair stand side by side. -/
theorem SpellsUnit.take {u : CodePoint} {w : List Char} (h : SpellsUnit u w) {rest : Text}
    (hrest : rest ≠ []) (hlow : Utf16.isHigh u.toNat = true → NoLow rest)
    (hescape : ∀ t, rest = .scalar '\\' :: .scalar 'u' :: t → (takeHex? t).isSome = true) :
    takeCodePoint (Text.ofChars w ++ rest) = .ok (u, rest) := by
  cases h with
  | @plain c hcontrol hquote hslash =>
    have hslash' : CodePoint.scalar c ≠ .scalar '\\' := fun e => hslash (CodePoint.scalar.inj e)
    have hcontrol' : ¬ (CodePoint.scalar c).toNat < 0x20 := Nat.not_lt.mpr hcontrol
    simp only [Text.ofChars_cons, Text.ofChars_nil, List.cons_append, List.nil_append,
      takeCodePoint, if_neg hslash', if_neg hcontrol']
  | @short letter c hmem =>
    obtain ⟨hescaped, hne⟩ := simpleEscape?_of_mem hmem
    have hne' : CodePoint.scalar letter ≠ .scalar 'u' := fun e => hne (CodePoint.scalar.inj e)
    simp only [Text.ofChars_cons, Text.ofChars_nil, List.cons_append, List.nil_append,
      takeCodePoint, if_true, if_neg hne', hescaped]
  | @code _ w hhex =>
    have htake := hhex.take hrest
    simp only [Text.ofChars_cons, List.cons_append, takeCodePoint, if_true, takeUnicodeEscape,
      List.tail_cons, htake]
    split
    · next second hhigh =>
      -- a second escape is there, but it does not name a second half
      obtain ⟨⟨m, r⟩, hm⟩ := Option.isSome_iff_exists.mp (hescape _ rfl)
      have hnot := hlow hhigh _ m r rfl hm
      rw [hm]
      simp only [hnot, Bool.false_eq_true, if_false, codePoint_toNat]
    · rw [codePoint_toNat]

/-- The two halves of a pair are taken as one. -/
theorem takeCodePoint_pair {a b : CodePoint} {w w' : List Char} (ha : SpellsUnit a w)
    (hb : SpellsUnit b w') (hhigh : Utf16.isHigh a.toNat = true) (hlow : Utf16.isLow b.toNat = true)
    {rest : Text} (hrest : rest ≠ []) :
    takeCodePoint (Text.ofChars w ++ (Text.ofChars w' ++ rest)) =
      .ok (codePoint (Utf16.joined a.toNat b.toNat), rest) := by
  cases ha with
  -- no half of a pair is a character, so both are spelled by their numbers
  | plain _ _ _ => rw [isHigh_scalar] at hhigh; cases hhigh
  | short _ => rw [isHigh_scalar] at hhigh; cases hhigh
  | @code _ w ha =>
  cases hb with
  | plain _ _ _ => rw [isLow_scalar] at hlow; cases hlow
  | short _ => rw [isLow_scalar] at hlow; cases hlow
  | @code _ w' hb =>
    have hsecond := hb.take hrest
    have hfirst := ha.take (List.append_ne_nil_of_left_ne_nil (List.cons_ne_nil
      (CodePoint.scalar '\\') (.scalar 'u' :: Text.ofChars w')) rest)
    obtain ⟨c, s, rfl⟩ := List.exists_cons_of_ne_nil hrest
    generalize b.toNat = m at hb hlow hsecond ⊢
    cases hb with
    | digits _ _ _ _ =>
      simp only [Text.ofChars_cons, Text.ofChars_nil, List.cons_append, List.nil_append]
        at hfirst hsecond ⊢
      simp only [takeCodePoint, if_true, takeUnicodeEscape, List.tail_cons, hfirst, hhigh, hsecond,
        hlow]

/-- No unit is spelled so that it looks like the closing quote. -/
theorem SpellsUnit.exists_cons {u : CodePoint} {w : List Char} (h : SpellsUnit u w) :
    ∃ c s, w = c :: s ∧ c ≠ '"' := by
  cases h with
  | plain _ hquote _ => exact ⟨_, _, rfl, hquote⟩
  | short _ => exact ⟨_, _, rfl, by decide⟩
  | code _ => exact ⟨_, _, rfl, by decide⟩

theorem SpellsUnit.length_pos {u : CodePoint} {w : List Char} (h : SpellsUnit u w) :
    0 < w.length := by
  obtain ⟨c, s, rfl, -⟩ := h.exists_cons
  exact Nat.succ_pos _

/-- Where the escape of a number is found, it is the number of the unit. -/
theorem SpellsUnit.takeHex? {u : CodePoint} {w : List Char} (h : SpellsUnit u w) {t rest : Text}
    (hrest : rest ≠ []) (ht : Text.ofChars w ++ rest = .scalar '\\' :: .scalar 'u' :: t) :
    takeHex? t = some (u.toNat, rest) := by
  cases h with
  | plain _ _ hslash => exact absurd (CodePoint.scalar.inj (List.cons.inj ht).1) hslash
  | short hmem =>
    have hletter := (List.cons.inj (List.cons.inj ht).2).1
    exact absurd (CodePoint.scalar.inj hletter) (simpleEscape?_of_mem hmem).2
  | code hhex =>
    rw [← (List.cons.inj (List.cons.inj ht).2).2]
    exact hhex.take hrest

/-! ## Strings -/

section Strings

variable {us : Text} {s : List Char} {fuel : Nat}

theorem takeQuoted_of_ne {taken text : Text} (h : ∀ c ∈ text.head?, c ≠ .scalar '"') :
    takeQuoted (fuel + 1) taken text =
      match takeCodePoint text with
      | .ok (c, rest) => takeQuoted fuel (c :: taken) rest
      | .error e => .error e := by
  rw [takeQuoted.eq_def]
  dsimp only
  split
  · exact absurd rfl (h _ rfl)
  · rfl

theorem SpellsUnit.head_ne {u : CodePoint} {w : List Char} (h : SpellsUnit u w) (rest : Text) :
    ∀ c ∈ (Text.ofChars w ++ rest).head?, c ≠ .scalar '"' := by
  obtain ⟨c, s, rfl, hc⟩ := h.exists_cons
  rintro d ⟨⟩ e
  exact hc (CodePoint.scalar.inj e)

/-- A unit that does not join with the next one is taken alone. -/
theorem SpellsUnit.take_alone {a b : CodePoint} {w t : List Char} (ha : SpellsUnit a w)
    (h : SpellsUnits (b :: us) t)
    (hpair : ¬ (Utf16.isHigh a.toNat && Utf16.isLow b.toNat) = true) {rest : Text}
    (hrest : rest ≠ []) :
    takeCodePoint (Text.ofChars w ++ (Text.ofChars t ++ rest)) =
      .ok (a, Text.ofChars t ++ rest) := by
  -- an escape that follows spells the next unit, which is not the second half
  have hnext {u : Text} (hu : Text.ofChars t ++ rest = .scalar '\\' :: .scalar 'u' :: u) :
      ∃ r, Json.takeHex? u = some (b.toNat, r) := by
    cases h with
    | @cons _ _ w' s hb h =>
      rw [Text.ofChars_append, List.append_assoc] at hu
      exact ⟨_, hb.takeHex? (List.append_ne_nil_of_right_ne_nil _ hrest) hu⟩
  refine ha.take (List.append_ne_nil_of_right_ne_nil _ hrest) (fun hhigh u m r hu hm => ?_)
    fun u hu => ?_
  · obtain ⟨r', hr'⟩ := hnext hu
    obtain ⟨rfl, -⟩ := Prod.mk.inj (Option.some.inj (hm.symm.trans hr'))
    rw [hhigh, Bool.true_and] at hpair
    exact Bool.eq_false_iff.mpr hpair
  · obtain ⟨r, hr⟩ := hnext hu
    rw [hr]
    rfl

/-- What spells a text is taken up to its closing quote. -/
theorem SpellsUnits.take (h : SpellsUnits us s) (hfuel : s.length < fuel) (taken rest : Text) :
    takeQuoted fuel taken (Text.ofChars s ++ .scalar '"' :: rest) =
      .ok (taken.reverse ++ joinPairs us, rest) := by
  induction us using joinPairs.induct generalizing s fuel taken with
  | case1 a b us hpair ih =>
    obtain ⟨hhigh, hlow⟩ := Bool.and_eq_true_iff.mp hpair
    cases h with
    | @cons _ _ w _ ha h =>
    cases h with
    | @cons _ _ w' s hb h =>
      -- two units are taken with one step
      have hpos : 0 < w.length := ha.length_pos
      obtain ⟨n, rfl⟩ : ∃ n, fuel = n + 1 := ⟨fuel - 1, by omega⟩
      have htake := takeCodePoint_pair ha hb hhigh hlow
        (List.append_ne_nil_of_right_ne_nil (Text.ofChars s) (List.cons_ne_nil (.scalar '"') rest))
      simp only [Text.ofChars_append, List.append_assoc]
      rw [takeQuoted_of_ne (ha.head_ne _), htake]
      simp only [List.length_append] at hfuel
      refine (ih h (by omega) _).trans ?_
      rw [joinPairs, if_pos hpair, List.reverse_cons, List.append_assoc]
      rfl
  | case2 a b us hpair ih =>
    cases h with
    | @cons _ _ w t ha h =>
      have hpos : 0 < w.length := ha.length_pos
      obtain ⟨n, rfl⟩ : ∃ n, fuel = n + 1 := ⟨fuel - 1, by omega⟩
      have htake := ha.take_alone h hpair (List.cons_ne_nil (CodePoint.scalar '"') rest)
      rw [List.length_append] at hfuel
      rw [Text.ofChars_append, List.append_assoc, takeQuoted_of_ne (ha.head_ne _), htake]
      refine (ih h (by omega) _).trans ?_
      rw [joinPairs, if_neg hpair, List.reverse_cons, List.append_assoc]
      rfl
  | case3 us hshort =>
    obtain ⟨n, rfl⟩ : ∃ n, fuel = n + 1 := ⟨fuel - 1, by omega⟩
    cases h with
    | nil =>
      rw [Text.ofChars_nil, List.nil_append, takeQuoted, joinPairs, List.append_nil]
      exact hshort
    | @cons a us w t ha h =>
      cases h with
      | cons _ _ => exact absurd rfl (hshort _ _ _)
      | nil =>
        -- the closing quote follows
        have htake : takeCodePoint (Text.ofChars w ++ .scalar '"' :: rest) =
            .ok (a, .scalar '"' :: rest) := by
          apply ha.take (List.cons_ne_nil _ _)
          · rintro - t m r ⟨⟩
          · rintro t ⟨⟩
        have hpos : 0 < w.length := ha.length_pos
        obtain ⟨m, rfl⟩ : ∃ m, n = m + 1 := ⟨n - 1, by rw [List.append_nil] at hfuel; omega⟩
        rw [List.append_nil, takeQuoted_of_ne (ha.head_ne _), htake]
        show takeQuoted (m + 1) (a :: taken) (.scalar '"' :: rest) = _
        rw [takeQuoted, List.reverse_cons]
        rfl

/-- The number behind `\u`, alone or as the first half of a pair. -/
theorem exists_of_takeUnicodeEscape {e : Char} {c : CodePoint} {rest : Text}
    (h : takeUnicodeEscape (Text.ofChars (e :: s)) = .ok (c, rest)) :
    (∃ w r, s = w ++ r ∧ rest = Text.ofChars r ∧ IsHex c.toNat w ∧
      (Utf16.isHigh c.toNat = true → NoLow rest)) ∨
    ∃ w w' r a b, s = w ++ '\\' :: 'u' :: (w' ++ r) ∧ rest = Text.ofChars r ∧ IsHex a w ∧
      IsHex b w' ∧ Utf16.isHigh a = true ∧ Utf16.isLow b = true ∧
      c = codePoint (Utf16.joined a b) := by
  rw [takeUnicodeEscape, Text.ofChars_cons, List.tail_cons] at h
  split at h
  · cases h
  next n rest' hfirst =>
  obtain ⟨w, r, rfl, rfl, hw⟩ := exists_of_takeHex? hfirst
  have hn : (codePoint n).toNat = n := toNat_codePoint (Nat.lt_trans hw.lt (by decide))
  split at h
  · next second hhigh hsecond =>
    obtain ⟨d, r, rfl, hd, hr⟩ := List.map_eq_cons_iff.mp hsecond
    obtain ⟨d', r, rfl, hd', hdigits⟩ := List.map_eq_cons_iff.mp hr
    obtain rfl := CodePoint.scalar.inj hd
    obtain rfl := CodePoint.scalar.inj hd'
    split at h
    · cases h
    next m rest'' htake =>
    rw [← hdigits] at htake
    obtain ⟨w', r', rfl, rfl, hw'⟩ := exists_of_takeHex? htake
    split at h
    · next hlow =>
      obtain ⟨rfl, rfl⟩ := Prod.mk.inj (Except.ok.inj h)
      exact .inr ⟨w, w', r', n, m, rfl, rfl, hw, hw', hhigh, hlow, rfl⟩
    · next hlow =>
      obtain ⟨rfl, rfl⟩ := Prod.mk.inj (Except.ok.inj h)
      -- a high half with a number behind it that is no low half stays alone
      refine .inl ⟨w, _, rfl, rfl, hn.symm ▸ hw, fun _ t m' r hrest ht => ?_⟩
      have ht' := (List.cons.inj (List.cons.inj hrest).2).2
      rw [← ht'] at ht
      obtain ⟨rfl, -⟩ := Prod.mk.inj (Option.some.inj (htake.symm.trans ht))
      exact Bool.eq_false_iff.mpr hlow
  · next hother =>
    obtain ⟨rfl, rfl⟩ := Prod.mk.inj (Except.ok.inj h)
    -- no number follows at all
    refine .inl ⟨w, r, rfl, rfl, hn.symm ▸ hw, fun hhigh t m r' hrest ht => ?_⟩
    rw [hn] at hhigh
    unfold takeHex? at ht
    split at ht
    · exact (hother _ _ _ _ _ _ hhigh hrest).elim
    · cases ht

/-- What is taken off a string: one unit, or two that are the halves of a pair. -/
theorem exists_of_takeCodePoint {c : CodePoint} {rest : Text} (hs : s.head? ≠ some '"')
    (h : takeCodePoint (Text.ofChars s) = .ok (c, rest)) :
    (∃ w r, s = w ++ r ∧ rest = Text.ofChars r ∧ SpellsUnit c w ∧
      (Utf16.isHigh c.toNat = true → NoLow rest)) ∨
    ∃ a b w w' r, s = w ++ (w' ++ r) ∧ rest = Text.ofChars r ∧ SpellsUnit a w ∧ SpellsUnit b w' ∧
      Utf16.isHigh a.toNat = true ∧ Utf16.isLow b.toNat = true ∧
      c = codePoint (Utf16.joined a.toNat b.toNat) := by
  cases s with
  | nil => cases h
  | cons d s =>
  rw [Text.ofChars_cons] at h
  unfold takeCodePoint at h
  dsimp only at h
  split at h
  · next hslash =>
    obtain rfl := CodePoint.scalar.inj hslash
    cases s with
    | nil => cases h
    | cons e t =>
    simp only [Text.ofChars_cons] at h
    split at h
    · next hu =>
      obtain rfl := CodePoint.scalar.inj hu
      -- a number, which can be the first half of a pair
      rcases exists_of_takeUnicodeEscape h with ⟨w, r, rfl, rfl, hw, hlone⟩ |
        ⟨w, w', r, a, b, rfl, rfl, hw, hw', hhigh, hlow, rfl⟩
      · exact .inl ⟨'\\' :: 'u' :: w, r, rfl, rfl, .code hw, hlone⟩
      · have ha : (codePoint a).toNat = a := toNat_codePoint (Nat.lt_trans hw.lt (by decide))
        have hb : (codePoint b).toNat = b := toNat_codePoint (Nat.lt_trans hw'.lt (by decide))
        refine .inr ⟨codePoint a, codePoint b, '\\' :: 'u' :: w, '\\' :: 'u' :: w', r, rfl, rfl,
          .code (ha.symm ▸ hw), .code (hb.symm ▸ hw'), ?_, ?_, ?_⟩
        · rw [ha]; exact hhigh
        · rw [hb]; exact hlow
        · rw [ha, hb]
    · split at h
      · next hx =>
        obtain ⟨rfl, rfl⟩ := Prod.mk.inj (Except.ok.inj h)
        -- one letter behind the backslash
        obtain ⟨letter, d, he, rfl, hmem⟩ := exists_of_simpleEscape? hx
        obtain rfl := CodePoint.scalar.inj he
        refine .inl ⟨['\\', e], t, rfl, rfl, .short hmem, fun hhigh => ?_⟩
        rw [isHigh_scalar] at hhigh
        cases hhigh
      · cases h
  · next hslash =>
    split at h
    · cases h
    next hcontrol =>
    obtain ⟨rfl, rfl⟩ := Prod.mk.inj (Except.ok.inj h)
    refine .inl ⟨[d], s, rfl, rfl, .plain (Nat.not_lt.mp hcontrol) ?_ ?_, fun hhigh => ?_⟩
    · rintro rfl
      exact hs rfl
    · rintro rfl
      exact hslash rfl
    · rw [isHigh_scalar] at hhigh
      cases hhigh

/-- A unit that is taken alone does not pair with the one behind it. -/
theorem joinPairs_cons {c : CodePoint} {rest : Text} (hus : SpellsUnits us s) (hrest : rest ≠ [])
    (hlone : Utf16.isHigh c.toNat = true → NoLow (Text.ofChars s ++ rest)) :
    joinPairs (c :: us) = c :: joinPairs us := by
  cases hus with
  | nil => rfl
  | @cons b us w s hb hus =>
    refine if_neg fun hpair => ?_
    obtain ⟨hhigh, hlow⟩ := Bool.and_eq_true_iff.mp hpair
    cases hb with
    | plain _ _ _ => rw [isLow_scalar] at hlow; cases hlow
    | short _ => rw [isLow_scalar] at hlow; cases hlow
    | @code _ w hw =>
      -- the escape of the second half would have been seen
      have htake := hw.take (List.append_ne_nil_of_right_ne_nil (Text.ofChars s) hrest)
      rw [Text.ofChars_append, List.append_assoc] at hlone
      rw [hlone hhigh _ _ _ rfl htake] at hlow
      cases hlow

/-- What is taken up to a closing quote spells the text. -/
theorem exists_of_takeQuoted {taken text rest : Text}
    (h : takeQuoted fuel taken (Text.ofChars s) = .ok (text, rest)) :
    ∃ us body r, s = body ++ '"' :: r ∧ rest = Text.ofChars r ∧ SpellsUnits us body ∧
      text = taken.reverse ++ joinPairs us := by
  induction fuel generalizing taken s with
  | zero => cases h
  | succ fuel ih =>
    by_cases hs : s.head? = some '"'
    · obtain ⟨r, rfl⟩ : ∃ r, s = '"' :: r := by
        cases s with
        | nil => cases hs
        | cons d r => exact ⟨r, by rw [Option.some.inj hs]⟩
      -- the closing quote
      obtain ⟨rfl, rfl⟩ := Prod.mk.inj (Except.ok.inj h)
      exact ⟨[], [], r, rfl, rfl, .nil, (List.append_nil _).symm⟩
    · have hne : ∀ c ∈ (Text.ofChars s).head?, c ≠ .scalar '"' := by
        cases s with
        | nil => rintro c ⟨⟩
        | cons d r =>
          rintro c ⟨⟩ e
          exact hs (congrArg some (CodePoint.scalar.inj e))
      rw [takeQuoted_of_ne hne] at h
      cases hcode : takeCodePoint (Text.ofChars s) with
      | error e => rw [hcode] at h; cases h
      | ok found =>
      obtain ⟨c, rest'⟩ := found
      rw [hcode] at h
      rcases exists_of_takeCodePoint hs hcode with ⟨w, r, rfl, rfl, hc, hlone⟩ |
        ⟨a, b, w, w', r, rfl, rfl, ha, hb, hhigh, hlow, rfl⟩
      · obtain ⟨us, body, r, rfl, rfl, hus, rfl⟩ := ih h
        refine ⟨c :: us, w ++ body, r, (List.append_assoc _ _ _).symm, rfl, .cons hc hus, ?_⟩
        -- a unit alone, which does not join with the one behind it
        rw [Text.ofChars_append] at hlone
        rw [joinPairs_cons hus (List.cons_ne_nil _ _) hlone, List.reverse_cons, List.append_assoc]
        rfl
      · obtain ⟨us, body, r, rfl, rfl, hus, rfl⟩ := ih h
        refine ⟨a :: b :: us, w ++ (w' ++ body), r, by simp, rfl, .cons ha (.cons hb hus), ?_⟩
        have hpair : (Utf16.isHigh a.toNat && Utf16.isLow b.toNat) = true := by
          rw [hhigh, hlow]
          rfl
        rw [joinPairs, if_pos hpair, List.reverse_cons, List.append_assoc]
        rfl

end Strings

/-! ## Numbers -/

/-- Characters that stand at the front of a text stand at the front of its characters. -/
theorem exists_of_ofChars_eq_append {s w : List Char} {rest : Text}
    (h : Text.ofChars s = Text.ofChars w ++ rest) : ∃ r, s = w ++ r ∧ rest = Text.ofChars r := by
  obtain ⟨v, r, rfl, hv, rfl⟩ := List.map_eq_append_iff.mp h
  obtain rfl : v = w := List.map_injective_iff.mpr (fun _ _ => CodePoint.scalar.inj) hv
  exact ⟨r, rfl, rfl⟩

/-- A number with a point or an exponent is the numeral of a real. -/
theorem isReal_of_pieces {whole point tail : List Char} (hwhole : IsWhole whole)
    (hpoint : IsPoint point) (htail : IsTail tail) (hne : ¬(point = [] ∧ tail = [])) :
    IsReal (whole ++ point ++ tail) := by
  cases hpoint with
  | nil =>
    rw [List.append_nil]
    exact .plain hwhole htail fun e => hne ⟨rfl, e⟩
  | digits hds hds' =>
    rw [List.append_assoc, List.cons_append]
    exact .pointed hwhole hds hds' htail

/-! ## Scalars -/

/-- The digits of an integer are within the limit. -/
def IsShort (ds : List Char) : Prop := ds.length ≤ digitLimit

/-- The scalar that a token stands for. -/
def Token.scalar? : Token → Option Scalar
  | null => some .null
  | bool b => some (.bool b)
  | int n => some (.int n)
  | real x => some (.real x)
  | text t => some (.text t)
  | _ => none

theorem Token.scalar?_inj {t u : Token} (h : t.scalar? = u.scalar?)
    (hsome : u.scalar?.isSome = true) : t = u := by
  cases t <;> cases u <;> simp_all [Token.scalar?]

/-- How a token is spelled. -/
inductive SpellsToken : Token → List Char → Prop where
  | punctuation {c : Char} {t : Token} (h : punctuation? (.scalar c) = some t) : SpellsToken t [c]
  | scalar {t : Token} {x : Scalar} {w : List Char} (ht : t.scalar? = some x)
      (h : SpellsScalar IsShort x w) : SpellsToken t w

section Tokens

variable {s : List Char} {rest : Text} {t : Token}

theorem exists_of_takeMagnitude? {negative : Bool}
    (h : takeMagnitude? negative (Text.ofChars s) = some (.token t, rest)) :
    ∃ w r x, s = w ++ r ∧ rest = Text.ofChars r ∧ t.scalar? = some x ∧
      SpellsScalar IsShort x (signed negative w) := by
  obtain ⟨whole, point, tail, hs, hwhole, hpoint, htail, -, hl⟩ := exists_pieces h
  obtain ⟨r, rfl, rfl⟩ := exists_of_ofChars_eq_append hs
  refine ⟨whole ++ point ++ tail, r, ?_⟩
  rcases hl with hlong | ⟨rfl, rfl, hlength, hint⟩ | ⟨hne, d, hd, hreal⟩
  · cases hlong
  · obtain rfl := Lexeme.token.inj hint
    rw [List.append_nil, List.append_nil]
    exact ⟨_, rfl, rfl, rfl, .int negative hwhole hlength⟩
  · obtain rfl := Lexeme.token.inj hreal
    refine ⟨.real (d.toBinary64 negative), rfl, rfl, rfl,
      .real negative (isReal_of_pieces hwhole hpoint htail hne) ?_⟩
    rw [Binary64.ofMagnitudeChars?_eq_map, hd]
    rfl

theorem exists_of_takeNumber? (h : takeNumber? (Text.ofChars s) = some (.token t, rest)) :
    ∃ w r x, s = w ++ r ∧ rest = Text.ofChars r ∧ t.scalar? = some x ∧
      SpellsScalar IsShort x w := by
  by_cases hs : ∃ s', s = '-' :: s'
  · obtain ⟨s, rfl⟩ := hs
    obtain ⟨w, r, x, rfl, rfl, ht, hx⟩ := @exists_of_takeMagnitude? _ _ _ true h
    exact ⟨'-' :: w, r, x, rfl, rfl, ht, hx⟩
  · rw [takeNumber?_of_ne] at h
    · exact exists_of_takeMagnitude? h
    · intro u hu
      obtain ⟨d, r, rfl, hd, rfl⟩ := List.map_eq_cons_iff.mp hu
      exact hs ⟨r, by rw [CodePoint.scalar.inj hd]⟩

theorem exists_of_dropWord? {word : String} (h : dropWord? word (Text.ofChars s) = some rest) :
    ∃ r, s = word.toList ++ r ∧ rest = Text.ofChars r := by
  rw [dropWord?] at h
  split at h
  · next hfront =>
    obtain ⟨u, hu⟩ := List.isPrefixOf_iff_prefix.mp hfront
    obtain ⟨r, rfl, rfl⟩ := @exists_of_ofChars_eq_append s word.toList u hu.symm
    refine ⟨r, rfl, ?_⟩
    rw [← Option.some.inj h, Text.ofChars_append]
    exact List.drop_left
  · cases h

/-- A token that is taken off a text is spelled by what was in front. -/
theorem exists_of_takeLexeme (h : takeLexeme (Text.ofChars s) = (.token t, rest)) :
    ∃ w r, s = w ++ r ∧ rest = Text.ofChars r ∧ SpellsToken t w := by
  cases s with
  | nil => cases h
  | cons c s =>
  rw [takeLexeme.eq_def, Text.ofChars_cons] at h
  dsimp only at h
  split at h
  · next p hp =>
    obtain ⟨htoken, rfl⟩ := Prod.mk.inj h
    obtain rfl := Lexeme.token.inj htoken
    exact ⟨[c], s, rfl, rfl, .punctuation hp⟩
  split at h
  · next hquote =>
    obtain rfl := CodePoint.scalar.inj hquote
    split at h
    · next text rest' hquoted =>
      obtain ⟨htoken, rfl⟩ := Prod.mk.inj h
      obtain rfl := Lexeme.token.inj htoken
      obtain ⟨us, body, r, rfl, rfl, hus, rfl⟩ := exists_of_takeQuoted hquoted
      refine ⟨'"' :: (body ++ ['"']), r, by simp, rfl, .scalar rfl (.text (.quoted hus))⟩
    · cases h
  split at h
  · next found hfound =>
    -- of the words, those for reals that are not finite give no token
    obtain ⟨⟨word, l⟩, hmem, hdrop⟩ := List.exists_of_findSome?_eq_some hfound
    obtain ⟨rest', hrest, rfl⟩ := Option.map_eq_some_iff.mp hdrop
    obtain ⟨rfl, rfl⟩ := Prod.mk.inj h
    rw [← Text.ofChars_cons] at hrest
    obtain ⟨r, hs, rfl⟩ := exists_of_dropWord? hrest
    refine ⟨word.toList, r, hs, rfl, ?_⟩
    simp only [words, List.mem_cons, Prod.mk.injEq, Lexeme.token.injEq, List.not_mem_nil,
      or_false, reduceCtorEq, and_false] at hmem
    rcases hmem with ⟨rfl, rfl⟩ | ⟨rfl, rfl⟩ | ⟨rfl, rfl⟩
    · exact .scalar rfl .null
    · exact .scalar rfl .true
    · exact .scalar rfl .false
  · cases hnumber : takeNumber? (.scalar c :: Text.ofChars s) with
    | none => rw [hnumber] at h; cases h
    | some found =>
      rw [hnumber] at h
      obtain rfl : found = (.token t, rest) := h
      obtain ⟨w, r, x, hw, hr, ht, hx⟩ := @exists_of_takeNumber? (c :: s) _ _ hnumber
      exact ⟨w, r, hw, hr, .scalar ht hx⟩

/-- A sign and a digit start a number. -/
theorem takeLexeme_signed {c : Char} {w : List Char} (hc : c.isDigit = true) (negative : Bool)
    {taken : Lexeme × Text}
    (h : takeMagnitude? negative (Text.ofChars (c :: w) ++ rest) = some taken) :
    takeLexeme (Text.ofChars (signed negative (c :: w)) ++ rest) = taken := by
  have hstart : StartsNumber (signed negative (c :: w)) := by
    refine ⟨c, w, hc, ?_⟩
    cases negative with
    | true => exact .inr rfl
    | false => exact .inl rfl
  refine hstart.takeLexeme ?_
  rw [signed, takeNumber?_signed hc]
  exact h

/-- What spells a token is taken off whole, if a number does not go on behind it. -/
theorem SpellsToken.take {w : List Char} (h : SpellsToken t w)
    (hrest : t.isNumber = true → Ends rest) :
    takeLexeme (Text.ofChars w ++ rest) = (.token t, rest) := by
  cases h with
  | punctuation h =>
    rw [Text.ofChars_cons, Text.ofChars_nil, List.singleton_append, takeLexeme, h]
  | @scalar _ x _ ht h =>
    cases h with
    | null => rw [@Token.scalar?_inj t (.null) ht rfl]; rfl
    | true => rw [@Token.scalar?_inj t (.bool true) ht rfl]; rfl
    | false => rw [@Token.scalar?_inj t (.bool false) ht rfl]; rfl
    | @int negative ds hds hshort =>
      obtain rfl := @Token.scalar?_inj t (.int _) ht rfl
      obtain ⟨c, w, rfl⟩ := List.exists_cons_of_ne_nil hds.ne_nil
      -- only here it matters that the number ends
      exact takeLexeme_signed (hds.digits c List.mem_cons_self) negative
        (hds.takeMagnitude? hshort (hrest rfl) negative)
    | @real negative s x hs hx =>
      obtain rfl := @Token.scalar?_inj t (.real x) ht rfl
      obtain ⟨c, w, rfl, hc⟩ := hs.exists_cons
      exact takeLexeme_signed hc negative (hs.takeMagnitude? (hrest rfl) hx)
    | @text u s hu =>
      obtain rfl := @Token.scalar?_inj t (.text u) ht rfl
      cases hu with
      | @quoted us s hus =>
        have hquote : punctuation? (.scalar '"') = none := rfl
        have hcons : Text.ofChars ('"' :: (s ++ ['"'])) ++ rest =
            .scalar '"' :: (Text.ofChars s ++ .scalar '"' :: rest) := by
          simp [Text.ofChars_append]
        rw [hcons, takeLexeme, hquote]
        show (if _ then _ else _) = _
        rw [if_pos rfl, hus.take]
        · rfl
        · simp only [List.length_cons, List.length_append, Text.length_ofChars]
          omega

end Tokens

end PropertyList.Json
