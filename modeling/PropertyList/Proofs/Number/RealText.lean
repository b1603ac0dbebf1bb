/-
  PropertyList.Proofs.Number.RealText

  A real is read back from its text.  Each layout of the digits is read as a decimal
  that stands for the same number as the digits, and so as the real whose shortest
  decimal they are.
-/
import PropertyList.Number.Decimal
import PropertyList.Proofs.Number.Decimal
import PropertyList.Proofs.Text.Coding
import Mathlib.Data.List.TakeWhile

namespace PropertyList

theorem ofDigits_append (base : Nat) (ds es : List Nat) :
    ofDigits base (ds ++ es) = ofDigits base ds * base ^ es.length + ofDigits base es := by
  induction es using List.reverseRecOn with
  | nil => rw [List.append_nil, List.length_nil, pow_zero, mul_one, ofDigits_nil, Nat.add_zero]
  | append_singleton es e ih =>
    rw [← List.append_assoc, ofDigits_append_singleton, ofDigits_append_singleton, ih,
      List.length_append, List.length_singleton]
    ring

namespace Binary64

variable {cs ds tail : List Char} {negative : Bool} {point : Int}

/-! ## The value of a run of digits -/

theorem ofDigitChars_append (hds : ∀ c ∈ ds, c.isDigit = true) :
    ofDigitChars (cs ++ ds) = ofDigitChars cs * 10 ^ ds.length + ofDigitChars ds := by
  have hlen : (ds.filterMap decimalDigit?).length = ds.length := by
    rw [filterMap_decimalDigit? hds, digitValues, List.length_map]
  rw [ofDigitChars, List.filterMap_append, ofDigits_append, hlen]
  rfl

theorem isDigit_of_mem_zeros {n : Nat} {c : Char} (h : c ∈ List.replicate n '0') :
    c.isDigit = true := by
  rw [List.eq_of_mem_replicate h]
  rfl

theorem isDigit_of_mem_zero {c : Char} (h : c ∈ ['0']) : c.isDigit = true := by
  rw [List.mem_singleton.mp h]
  rfl

theorem ofDigitChars_zeros (n : Nat) : ofDigitChars (List.replicate n '0') = 0 := by
  induction n with
  | zero => rfl
  | succ n ih =>
    rw [List.replicate_succ', ofDigitChars_append fun c => isDigit_of_mem_zero, ih, Nat.zero_mul]
    rfl

theorem ofDigitChars_digits (n : Nat) : ofDigitChars (Integer.digits n) = n := by
  rw [ofDigitChars, filterMap_decimalDigit? fun c => Integer.isDigit_of_mem_digits]
  exact Integer.ofDigits_digits n

theorem ofDigitChars_lt (hcs : ∀ c ∈ cs, c.isDigit = true) :
    ofDigitChars cs < Nat.pow 10 cs.length := by
  induction cs using List.reverseRecOn with
  | nil => decide
  | append_singleton cs c ih =>
    obtain ⟨hfront, hlast⟩ := List.forall_mem_append.mp hcs
    have hc := isDigit_iff.mp (hlast c List.mem_cons_self)
    have hvalue : ofDigitChars [c] = c.toNat - 0x30 := by
      rw [ofDigitChars, filterMap_decimalDigit? hlast, digitValues, List.map_singleton,
        ofDigits, List.foldl_cons, List.foldl_nil, Nat.zero_mul, Nat.zero_add]
    have hlt := ih hfront
    rw [ofDigitChars_append hlast, hvalue, List.length_append, List.length_singleton, pow_one]
    have hpow : Nat.pow 10 (cs.length + 1) = Nat.pow 10 cs.length * 10 := rfl
    omega

/-- The number that digits stand for when `point` of them are in front of the point. -/
def positional (ds : List Char) (point : Int) : ℚ := ofDigitChars ds * 10 ^ (point - ds.length)

/-- Digits are zeros behind the significant ones. -/
theorem exists_zeros (ds : List Char) :
    ∃ k, ds = (ds.reverse.dropWhile (· = '0')).reverse ++ List.replicate k '0' := by
  have hzeros : ds.reverse.takeWhile (· = '0') =
      List.replicate (ds.reverse.takeWhile (· = '0')).length '0' :=
    List.eq_replicate_of_mem fun c hc =>
      of_decide_eq_true (List.mem_takeWhile_imp (p := fun c : Char => decide (c = '0')) hc)
  refine ⟨(ds.reverse.takeWhile (· = '0')).length, ?_⟩
  rw [← List.reverse_replicate, ← hzeros, ← List.reverse_append, List.takeWhile_append_dropWhile,
    List.reverse_reverse]

theorem significantDigits_ne_nil (ds : List Char) : significantDigits ds ≠ [] := by
  rw [significantDigits]
  split
  next => exact List.cons_ne_nil _ _
  next h => exact h

theorem isDigit_of_mem_significantDigits (hds : ∀ c ∈ ds, c.isDigit = true) {c : Char}
    (h : c ∈ significantDigits ds) : c.isDigit = true := by
  rw [significantDigits] at h
  split at h
  next =>
    rw [List.mem_singleton.mp h]
    rfl
  next =>
    exact hds c (List.mem_reverse.mp ((List.dropWhile_sublist _).mem (List.mem_reverse.mp h)))

/-- The zeros at the end count for nothing. -/
theorem positional_significantDigits (ds : List Char) (point : Int) :
    positional (significantDigits ds) point = positional ds point := by
  obtain ⟨k, hk⟩ := exists_zeros ds
  rw [significantDigits]
  split
  -- nothing but zeros: the number is zero at any point
  next hnil =>
    rw [hnil, List.nil_append] at hk
    have hzero : ofDigitChars ['0'] = 0 := rfl
    rw [positional, positional, hk, ofDigitChars_zeros, hzero, Nat.cast_zero, zero_mul, zero_mul]
  next ds' hds' =>
    have hvalue : ofDigitChars ds =
        ofDigitChars (ds.reverse.dropWhile (· = '0')).reverse * 10 ^ k := by
      conv_lhs => rw [hk]
      rw [ofDigitChars_append fun c => isDigit_of_mem_zeros, ofDigitChars_zeros, Nat.add_zero,
        List.length_replicate]
    have hlen := congrArg List.length hk
    rw [List.length_append, List.length_replicate] at hlen
    rw [positional, positional, hvalue, Nat.cast_mul, Nat.cast_pow, Nat.cast_ofNat, mul_assoc,
      ← zpow_natCast, ← zpow_add₀ (by norm_num), hlen]
    congr 2
    push_cast
    ring

/-! ## Numerals -/

/-- The characters of the text of a real. -/
def IsRealChar (c : Char) : Prop :=
  c.isDigit = true ∨ c ∈ ['+', '-', '.', 'a', 'e', 'f', 'i', 'n']

namespace IsRealChar

variable {c : Char}

/-- A property of the characters of the text of a real is checked on its alphabet. -/
theorem elim {P : Char → Prop} (h : IsRealChar c) (hdigit : c.isDigit = true → P c)
    (hother : ∀ c ∈ ['+', '-', '.', 'a', 'e', 'f', 'i', 'n'], P c) : P c :=
  Or.elim h hdigit (hother c)

theorem bounds (h : IsRealChar c) : 32 < c.toNat ∧ c.toNat < 127 := by
  refine h.elim (P := fun c => 32 < c.toNat ∧ c.toNat < 127) (fun h => ?_)
    (forall_of_all (by decide))
  have hc := isDigit_iff.mp h
  omega

theorem ne_underscore (h : IsRealChar c) : c ≠ '_' := by
  refine h.elim (P := fun c => c ≠ '_') (fun h e => ?_) (forall_of_all (by decide))
  rw [e] at h
  revert h
  decide

end IsRealChar

/-- What follows a run of digits does not go on with digits. -/
def NoDigit (s : List Char) : Prop := ∀ c ∈ s.head?, c.isDigit = false

theorem takeDigits_append (hds : ∀ c ∈ ds, c.isDigit = true) (htail : NoDigit tail) :
    takeDigits (ds ++ tail) = (ds, tail) := by
  refine span_append (fun c hc => ?_) fun c hc => Bool.eq_false_iff.mpr fun h => ?_
  · rw [decimalDigit?_of_isDigit (hds c hc)]
    rfl
  · have hnot := htail c hc
    rw [isDigit_of_decimalDigit? h] at hnot
    cases hnot

/-- The end of a numeral that gives its exponent. -/
structure IsExponent (tail : List Char) (e : Int) : Prop where
  chars : ∀ c ∈ tail, IsRealChar c
  noDigit : NoDigit tail
  noPoint : ∀ s, tail ≠ '.' :: s
  reads : takeExponent? tail = some e

theorem IsExponent.nil : IsExponent [] 0 where
  chars := List.forall_mem_nil _
  noDigit := fun _ h => nomatch h
  noPoint := fun _ h => nomatch h
  reads := rfl

theorem IsExponent.cons (hds : ∀ c ∈ ds, c.isDigit = true) (hne : ds ≠ []) (negative : Bool) :
    IsExponent ('e' :: (if negative then '-' else '+') :: ds)
      (if negative then -(ofDigitChars ds : Int) else ofDigitChars ds) where
  chars := by
    refine List.forall_mem_cons.mpr ⟨.inr (by decide), List.forall_mem_cons.mpr ⟨?_, fun c hc =>
      .inl (hds c hc)⟩⟩
    -- the sign is taken off in front of the digits
    cases negative <;> exact .inr (by decide)
  noDigit := fun c hc => by
    cases hc
    rfl
  noPoint := fun s h => absurd (List.head_eq_of_cons_eq h) (by decide)
  reads := by
    have hdigits : takeDigits (ds ++ []) = (ds, []) := takeDigits_append hds fun _ h => nomatch h
    rw [List.append_nil] at hdigits
    obtain ⟨d, ds, rfl⟩ := List.exists_cons_of_ne_nil hne
    rw [takeExponent?, if_pos (.inl rfl)]
    cases negative
    · simp only [Bool.false_eq_true, if_false, takeSign, hdigits]
    · simp only [if_true, takeSign, hdigits]

/-- A numeral for a number: digits, perhaps a point and more digits, and perhaps an exponent. -/
inductive IsNumeral (q : ℚ) : List Char → Prop where
  | pointed {whole part tail : List Char} {e : Int} (hwhole : ∀ c ∈ whole, c.isDigit = true)
      (hne : whole ≠ []) (hpart : ∀ c ∈ part, c.isDigit = true) (htail : IsExponent tail e)
      (hvalue : (ofDigitChars (whole ++ part) : ℚ) * 10 ^ (e - part.length) = q) :
      IsNumeral q (whole ++ '.' :: (part ++ tail))
  | plain {whole tail : List Char} {e : Int} (hwhole : ∀ c ∈ whole, c.isDigit = true)
      (hne : whole ≠ []) (htail : IsExponent tail e)
      (hvalue : (ofDigitChars whole : ℚ) * 10 ^ e = q) : IsNumeral q (whole ++ tail)

namespace IsNumeral

variable {q : ℚ} {s : List Char}

theorem isEmpty_eq_false {whole : List Char} (hne : whole ≠ []) : whole.isEmpty = false :=
  Bool.eq_false_iff.mpr fun h => hne (List.isEmpty_iff.mp h)

/-- A numeral is read as each decimal for its number. -/
theorem ofMagnitudeChars?_eq (h : IsNumeral q s) {digits : Nat} {exponent : Int}
    (hq : (digits : ℚ) * 10 ^ exponent = q) :
    ofMagnitudeChars? negative s = some (roundDecimal negative digits exponent) := by
  cases h with
  -- digits on both sides of the point, and then the exponent
  | @pointed whole part tail e hwhole hne hpart htail hvalue =>
    have hpoint : NoDigit ('.' :: (part ++ tail)) := fun c hc => by
      cases hc
      rfl
    rw [roundDecimal_congr (hq.trans hvalue.symm)]
    unfold ofMagnitudeChars?
    simp only [takeDigits_append hwhole hpoint, takeFraction, takeDigits_append hpart htail.noDigit,
      isEmpty_eq_false hne, Bool.false_and, Bool.false_eq_true, if_false, htail.reads,
      Option.bind_eq_bind, Option.bind_some]
  | @plain whole tail e hwhole hne htail hvalue =>
    have hfraction : takeFraction tail = ([], tail) := by
      rw [takeFraction.eq_def]
      split
      next s => exact absurd rfl (htail.noPoint s)
      next => rfl
    rw [roundDecimal_congr (hq.trans hvalue.symm)]
    unfold ofMagnitudeChars?
    simp only [takeDigits_append hwhole htail.noDigit, hfraction, isEmpty_eq_false hne,
      Bool.false_and, Bool.false_eq_true, if_false, htail.reads, Option.bind_eq_bind,
      Option.bind_some, List.append_nil, List.length_nil, Nat.cast_zero, sub_zero]

theorem chars (h : IsNumeral q s) {c : Char} (hc : c ∈ s) : IsRealChar c := by
  cases h with
  | pointed hwhole _ hpart htail _ =>
    simp only [List.mem_append, List.mem_cons] at hc
    obtain hc | rfl | hc | hc := hc
    · exact .inl (hwhole c hc)
    · exact .inr (by decide)
    · exact .inl (hpart c hc)
    · exact htail.chars c hc
  | plain hwhole _ htail _ =>
    rcases List.mem_append.mp hc with hc | hc
    · exact .inl (hwhole c hc)
    · exact htail.chars c hc

/-- A numeral starts with a digit. -/
theorem exists_cons (h : IsNumeral q s) : ∃ c rest, s = c :: rest ∧ c.isDigit = true := by
  cases h with
  | pointed hwhole hne _ _ _ =>
    obtain ⟨c, rest, rfl⟩ := List.exists_cons_of_ne_nil hne
    exact ⟨c, _, rfl, hwhole c List.mem_cons_self⟩
  | plain hwhole hne _ _ =>
    obtain ⟨c, rest, rfl⟩ := List.exists_cons_of_ne_nil hne
    exact ⟨c, _, rfl, hwhole c List.mem_cons_self⟩

end IsNumeral

/-! ## The layouts -/

/-- The digits of an exponent, at least two of them. -/
def exponentDigits (n : Nat) : List Char :=
  if (Integer.digits n).length < 2 then '0' :: Integer.digits n else Integer.digits n

theorem isDigit_of_mem_exponentDigits {n : Nat} {c : Char} (h : c ∈ exponentDigits n) :
    c.isDigit = true := by
  rw [exponentDigits] at h
  split at h
  · rcases List.mem_cons.mp h with rfl | h
    · rfl
    · exact Integer.isDigit_of_mem_digits h
  · exact Integer.isDigit_of_mem_digits h

theorem exponentDigits_ne_nil (n : Nat) : exponentDigits n ≠ [] := by
  rw [exponentDigits]
  split
  · exact List.cons_ne_nil _ _
  · exact Integer.digits_ne_nil n

theorem ofDigitChars_exponentDigits (n : Nat) : ofDigitChars (exponentDigits n) = n := by
  rw [exponentDigits]
  split
  · exact ofDigitChars_digits n
  · exact ofDigitChars_digits n

/-- The exponent of a layout is the one that is read. -/
theorem isExponent_layout (e : Int) :
    IsExponent ('e' :: (if e < 0 then '-' else '+') :: exponentDigits e.natAbs) e := by
  have h := IsExponent.cons (fun c => isDigit_of_mem_exponentDigits) (exponentDigits_ne_nil e.natAbs)
    (decide (e < 0))
  rw [ofDigitChars_exponentDigits, Integer.signed_natAbs] at h
  simpa only [decide_eq_true_eq] using h

/-- The digits with the point behind the first one. -/
def mantissa : List Char → List Char
  | d :: rest@(_ :: _) => d :: '.' :: rest
  | ds => ds

section

variable (hds : ∀ c ∈ ds, c.isDigit = true) (hne : ds ≠ [])
include hds

/-- Zeros behind the point, then the digits. -/
theorem isNumeral_small (hpoint : point ≤ 0) : IsNumeral (positional ds point)
    ('0' :: '.' :: (List.replicate point.natAbs '0' ++ ds)) := by
  have hpart : ∀ c ∈ List.replicate point.natAbs '0' ++ ds, c.isDigit = true := fun c hc =>
    (List.mem_append.mp hc).elim isDigit_of_mem_zeros (hds c)
  have hzeros : ['0'] ++ (List.replicate point.natAbs '0' ++ ds) =
      List.replicate (point.natAbs + 1) '0' ++ ds := by
    rw [List.replicate_succ]
    rfl
  rw [← List.append_nil (List.replicate point.natAbs '0' ++ ds)]
  refine .pointed (fun c => isDigit_of_mem_zero) (List.cons_ne_nil _ _) hpart .nil ?_
  rw [hzeros, ofDigitChars_append hds, ofDigitChars_zeros, Nat.zero_mul, Nat.zero_add,
    List.length_append, List.length_replicate, positional]
  congr 2
  omega

/-- The point between the digits. -/
theorem isNumeral_split (hpoint : 0 < point) (hlen : point.natAbs < ds.length) :
    IsNumeral (positional ds point)
      (ds.take point.natAbs ++ '.' :: ds.drop point.natAbs) := by
  have htake : ds.take point.natAbs ≠ [] := by
    intro h
    have hlength := congrArg List.length h
    rw [List.length_take, List.length_nil] at hlength
    omega
  rw [← List.append_nil (ds.drop point.natAbs)]
  refine .pointed (fun c hc => hds c (List.mem_of_mem_take hc)) htake
    (fun c hc => hds c (List.mem_of_mem_drop hc)) .nil ?_
  rw [List.take_append_drop, List.length_drop, positional]
  congr 2
  omega

include hne

/-- The digits, zeros, and a zero behind the point. -/
theorem isNumeral_long (hpoint : 0 < point) (hlen : ds.length ≤ point.natAbs) :
    IsNumeral (positional ds point)
      (ds ++ List.replicate (point.natAbs - ds.length) '0' ++ ['.', '0']) := by
  have hwhole : ∀ c ∈ ds ++ List.replicate (point.natAbs - ds.length) '0', c.isDigit = true :=
    fun c hc => (List.mem_append.mp hc).elim (hds c) isDigit_of_mem_zeros
  have hzeros : ds ++ List.replicate (point.natAbs - ds.length) '0' ++ ['0'] =
      ds ++ List.replicate (point.natAbs - ds.length + 1) '0' := by
    rw [List.replicate_succ', List.append_assoc]
  refine .pointed hwhole (List.append_ne_nil_of_left_ne_nil hne _) (fun c => isDigit_of_mem_zero)
    .nil ?_
  rw [hzeros, ofDigitChars_append fun c => isDigit_of_mem_zeros, ofDigitChars_zeros, Nat.add_zero,
    List.length_replicate, List.length_singleton, positional, Nat.cast_mul, Nat.cast_pow,
    Nat.cast_ofNat, mul_assoc, ← zpow_natCast, ← zpow_add₀ (by norm_num)]
  congr 2
  omega

/-- One digit in front of the point, and an exponent. -/
theorem isNumeral_scientific (point : Int) : IsNumeral (positional ds point)
    (mantissa ds ++
      'e' :: (if point - 1 < 0 then '-' else '+') :: exponentDigits (point - 1).natAbs) := by
  have htail := isExponent_layout (point - 1)
  obtain ⟨d, rest, rfl⟩ := List.exists_cons_of_ne_nil hne
  have hd : ∀ c ∈ [d], c.isDigit = true := List.forall_mem_singleton.mpr (hds d List.mem_cons_self)
  cases rest with
  | nil =>
    refine .plain hd (List.cons_ne_nil _ _) htail ?_
    rw [mantissa, positional, List.length_singleton, Nat.cast_one]
    exact fun _ _ _ h => nomatch h
  | cons d' rest =>
    refine .pointed hd (List.cons_ne_nil _ _) (fun c hc => hds c (List.mem_cons_of_mem _ hc)) htail ?_
    rw [positional, List.singleton_append]
    congr 2
    simp only [List.length_cons]
    omega

/-- The layout of digits is a numeral for the number that they stand for. -/
theorem isNumeral_layout (point : Int) : IsNumeral (positional ds point) (layout ds point) := by
  unfold layout
  split
  next hrange =>
    split
    next hsmall => exact isNumeral_small hds hsmall
    next hpos =>
    split
    next hlong => exact isNumeral_long hds hne (by omega) hlong
    next hshort => exact isNumeral_split hds (by omega) (by omega)
  next => exact isNumeral_scientific hds hne point

end

/-! ## The text of a real -/

/-- The magnitude of a real in its text. -/
def magnitudeText (x : Binary64) : List Char :=
  if x.isFinite then
    layout (significantDigits (Integer.digits x.shortest.digits))
      (if x.shortest.digits = 0 then 1
        else (Integer.digits x.shortest.digits).length + x.shortest.exponent)
  else
    "inf".toList

theorem text_eq {x : Binary64} (h : x.isNaN = false) :
    x.text = if x.isNegative then '-' :: x.magnitudeText else x.magnitudeText := by
  rw [text, if_neg (by rw [h]; exact Bool.false_ne_true)]
  rfl

theorem isNaN_of_isFinite {x : Binary64} (h : x.isFinite = true) : x.isNaN = false := by
  have hlt : x.magnitude < infinityMagnitude := of_decide_eq_true h
  exact decide_eq_false (by omega)

/-- The magnitude of a finite real is a numeral for its shortest decimal. -/
theorem isNumeral_magnitudeText {x : Binary64} (hx : x.isFinite = true) :
    IsNumeral (x.shortest.digits * 10 ^ x.shortest.exponent) x.magnitudeText := by
  have hdigits : ∀ c ∈ significantDigits (Integer.digits x.shortest.digits), c.isDigit = true :=
    fun c => isDigit_of_mem_significantDigits fun c => Integer.isDigit_of_mem_digits
  have hvalue : positional (significantDigits (Integer.digits x.shortest.digits))
      (if x.shortest.digits = 0 then 1
        else (Integer.digits x.shortest.digits).length + x.shortest.exponent) =
      x.shortest.digits * 10 ^ x.shortest.exponent := by
    rw [positional_significantDigits, positional, ofDigitChars_digits]
    split
    next hzero => rw [hzero, Nat.cast_zero, zero_mul, zero_mul]
    next => rw [add_sub_cancel_left]
  rw [magnitudeText, if_pos hx, ← hvalue]
  exact isNumeral_layout hdigits (significantDigits_ne_nil _) _

theorem isRealChar_of_mem_text {x : Binary64} {c : Char} (h : c ∈ x.text) : IsRealChar c := by
  have hword : ∀ c ∈ "naninf".toList, IsRealChar c := by
    unfold IsRealChar
    exact forall_of_all (by decide)
  -- infinities are the word, and all else is a numeral
  have hmagnitude : c ∈ x.magnitudeText → IsRealChar c := by
    intro h
    by_cases hx : x.isFinite = true
    · exact (isNumeral_magnitudeText hx).chars h
    · rw [magnitudeText, if_neg hx] at h
      exact hword c (List.mem_append_right "nan".toList h)
  cases hnan : x.isNaN with
  | true =>
    rw [text, hnan, if_pos rfl] at h
    exact hword c (List.mem_append_left "inf".toList h)
  | false =>
    rw [text_eq hnan] at h
    split at h
    · rcases List.mem_cons.mp h with rfl | h
      · exact .inr (by decide)
      · exact hmagnitude h
    · exact hmagnitude h

/-! ## Reading the text -/

theorem dropUnderscores?_of_forall (h : ∀ c ∈ cs, c ≠ '_') (afterDigit : Bool) :
    dropUnderscores? afterDigit cs = some cs := by
  induction cs generalizing afterDigit with
  | nil => rfl
  | cons c cs ih =>
    rw [dropUnderscores?.eq_def]
    simp only
    rw [if_neg (h c List.mem_cons_self), ih fun c hc => h c (List.mem_cons_of_mem _ hc)]
    rfl

theorem toLower_of_isDigit {c : Char} (h : c.isDigit = true) : c.toLower = c := by
  have hhigh := (isDigit_iff.mp h).2
  apply dif_neg
  intro hupper
  have hlow : 0x41 ≤ c.toNat := hupper.1
  omega

/-- What starts with a digit is none of the words for a real. -/
theorem map_toLower_ne {c : Char} (hc : c.isDigit = true) (s : List Char) {d : Char}
    (hd : d.isDigit = false) (w : List Char) : (c :: s).map Char.toLower ≠ d :: w := by
  rw [List.map_cons, toLower_of_isDigit hc]
  intro h
  rw [List.head_eq_of_cons_eq h, hd] at hc
  cases hc

/-- A numeral that starts with a digit is read as a magnitude, with a minus in front of it as
    that of a negative real. -/
theorem ofNumeral?_signed {c : Char} (hc : c.isDigit = true) (s : List Char) (negative : Bool) :
    ofNumeral? (if negative then '-' :: c :: s else c :: s) =
      ofMagnitudeChars? negative (c :: s) := by
  have hsign : takeSign (if negative then '-' :: c :: s else c :: s) = (negative, c :: s) := by
    cases negative
    · refine takeSign_of_ne ?_ ?_ <;> (rintro rfl; revert hc; decide)
    · rfl
  have hword : ¬((c :: s).map Char.toLower = "inf".toList ∨
      (c :: s).map Char.toLower = "infinity".toList) :=
    not_or_intro (map_toLower_ne hc s rfl _) (map_toLower_ne hc s rfl _)
  have hnan : (c :: s).map Char.toLower ≠ "nan".toList := map_toLower_ne hc s rfl _
  rw [ofNumeral?]
  simp only [hsign]
  rw [if_neg hword, if_neg hnan]

/-- What reading a text finds of the real that was written: what is no number has lost its sign
    and its payload. -/
def inText (x : Binary64) : Binary64 := if x.isNaN then nan false else x

/-- The shortest decimal of a finite real is read back as that real. -/
theorem ofNumeral?_finite {x : Binary64} (hx : x.isFinite = true) :
    ofNumeral? (if x.isNegative then '-' :: x.magnitudeText else x.magnitudeText) = some x := by
  have hnumeral := isNumeral_magnitudeText hx
  obtain ⟨c, s, htext, hc⟩ := hnumeral.exists_cons
  rw [htext, ofNumeral?_signed hc, ← htext, hnumeral.ofMagnitudeChars?_eq rfl]
  exact congrArg some (shortest_toBinary64 hx)

theorem ofNumeral?_infinity (negative : Bool) :
    ofNumeral? (if negative then '-' :: "inf".toList else "inf".toList) =
      some (infinity negative) := by
  cases negative <;> rfl

theorem eq_infinity {x : Binary64} (hnan : x.isNaN = false) (hx : ¬x.isFinite = true) :
    x = infinity x.isNegative := by
  have hle : ¬infinityMagnitude < x.magnitude := of_decide_eq_false hnan
  have hge : ¬x.magnitude < infinityMagnitude := fun h => hx (decide_eq_true h)
  have hmagnitude : x.magnitude = infinityMagnitude := by omega
  conv_lhs => rw [← ofMagnitude_eta x, hmagnitude]
  rfl

theorem ofNumeral?_text (x : Binary64) : ofNumeral? x.text = some x.inText := by
  cases hnan : x.isNaN with
  | true =>
    rw [text, inText, hnan, if_pos rfl, if_pos rfl]
    rfl
  | false =>
    rw [text_eq hnan, inText, hnan, if_neg Bool.false_ne_true]
    by_cases hx : x.isFinite = true
    · exact ofNumeral?_finite hx
    · rw [magnitudeText, if_neg hx, ofNumeral?_infinity, ← eq_infinity hnan hx]

/-- A real is read back from its text. -/
theorem ofText?_text (x : Binary64) : ofText? (Text.ofChars x.text) = some x.inText := by
  have hchars : ∀ c ∈ x.text, 32 < c.toNat ∧ c.toNat < 127 :=
    fun c hc => (isRealChar_of_mem_text hc).bounds
  rw [ofText?, numeralChars_ofChars fun c hc => (hchars c hc).2,
    trimNumeral_of_forall fun c hc => isNumeralBlank_eq_false (hchars c hc).1,
    dropUnderscores?_of_forall fun c hc => (isRealChar_of_mem_text hc).ne_underscore,
    Option.bind_some]
  exact ofNumeral?_text x

end Binary64

end PropertyList
