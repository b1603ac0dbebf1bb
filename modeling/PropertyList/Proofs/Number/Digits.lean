/-
  PropertyList.Proofs.Number.Digits

  Decimal text and the numbers it stands for.  A run of digits has one value, the
  digits of a number have that number as theirs, and so an integer is read back
  from its decimal text.
-/
import PropertyList.Number.Integer

namespace PropertyList

/-! ## Digits -/

theorem isDigit_iff {c : Char} : c.isDigit = true ↔ 0x30 ≤ c.toNat ∧ c.toNat ≤ 0x39 := by
  simp only [Char.isDigit, Bool.and_eq_true, decide_eq_true_eq]
  rfl

/-- The values of the digits of a run. -/
def digitValues (cs : List Char) : List Nat := cs.map fun c => c.toNat - 0x30

theorem decimalDigit?_of_isDigit {c : Char} (h : c.isDigit = true) :
    decimalDigit? c = some (c.toNat - 0x30) := by
  obtain ⟨hlow, hhigh⟩ := isDigit_iff.mp h
  exact if_pos ⟨hlow, hhigh⟩

/-- Only digits are read as digits. -/
theorem isDigit_of_decimalDigit? {c : Char} (h : (decimalDigit? c).isSome = true) :
    c.isDigit = true := by
  unfold decimalDigit? at h
  split at h
  · next hc => exact isDigit_iff.mpr hc
  · cases h

theorem mapM_decimalDigit? {cs : List Char} (h : ∀ c ∈ cs, c.isDigit = true) :
    cs.mapM decimalDigit? = some (digitValues cs) := by
  induction cs with
  | nil => rfl
  | cons c cs ih =>
    rw [List.mapM_cons, decimalDigit?_of_isDigit (h c List.mem_cons_self),
      ih fun c hc => h c (List.mem_cons_of_mem _ hc)]
    rfl

theorem filterMap_decimalDigit? {cs : List Char} (h : ∀ c ∈ cs, c.isDigit = true) :
    cs.filterMap decimalDigit? = digitValues cs := by
  induction cs with
  | nil => rfl
  | cons c cs ih =>
    rw [List.filterMap_cons_some (decimalDigit?_of_isDigit (h c List.mem_cons_self)),
      ih fun c hc => h c (List.mem_cons_of_mem _ hc)]
    rfl

/-- Digits alone are a run without underscores. -/
theorem underscored?_digits {cs : List Char} (h : ∀ c ∈ cs, c.isDigit = true) :
    underscored? decimalDigit? true cs = some (digitValues cs) := by
  induction cs with
  | nil => rfl
  | cons c cs ih =>
    have hc := h c List.mem_cons_self
    have hne : c ≠ '_' := fun e => by rw [e] at hc; revert hc; decide
    rw [underscored?, if_neg hne, decimalDigit?_of_isDigit hc]
    simp only [ih fun c hc => h c (List.mem_cons_of_mem _ hc)]
    rfl

theorem underscored?_false_digits {cs : List Char} (hne : cs ≠ [])
    (h : ∀ c ∈ cs, c.isDigit = true) :
    underscored? decimalDigit? false cs = some (digitValues cs) := by
  cases cs with
  | nil => exact absurd rfl hne
  | cons c cs =>
    -- the two cases differ only at an underscore and at the end
    have hc := h c List.mem_cons_self
    have hne : c ≠ '_' := fun e => by rw [e] at hc; revert hc; decide
    rw [← underscored?_digits h, underscored?, underscored?, if_neg hne, if_neg hne]

theorem ofDigits_digitValues (cs : List Char) :
    ofDigits 10 (digitValues cs) = Nat.ofDigitChars 10 cs 0 := by
  rw [ofDigits, digitValues, List.foldl_map, Nat.ofDigitChars_eq_foldl]
  refine congrArg (fun f => cs.foldl f 0) ?_
  funext n c
  rw [Nat.mul_comm]
  rfl

/-! ## Numerals -/

theorem numeralChar_of_lt {c : Char} (h : c.toNat < 127) :
    (CodePoint.scalar c).numeralChar = c := if_pos h

/-- ASCII characters are those of a numeral already. -/
theorem numeralChars_ofChars {cs : List Char} (h : ∀ c ∈ cs, c.toNat < 127) :
    numeralChars (Text.ofChars cs) = cs := by
  rw [numeralChars, Text.ofChars, List.map_map]
  exact (List.map_congr_left fun c hc => numeralChar_of_lt (h c hc)).trans (List.map_id cs)

theorem dropWhile_of_forall {α : Type} {p : α → Bool} {l : List α} (h : ∀ a ∈ l, p a = false) :
    l.dropWhile p = l := by
  cases l with
  | nil => rfl
  | cons a l =>
    rw [List.dropWhile_cons, h a List.mem_cons_self]
    rfl

/-- A numeral without blanks has none around it. -/
theorem trimNumeral_of_forall {cs : List Char} (h : ∀ c ∈ cs, isNumeralBlank c = false) :
    trimNumeral cs = cs := by
  rw [trimNumeral, trimRight, dropWhile_of_forall h,
    dropWhile_of_forall fun c hc => h c (List.mem_reverse.mp hc), List.reverse_reverse]

theorem isNumeralBlank_eq_false {c : Char} (h : 32 < c.toNat) : isNumeralBlank c = false := by
  have h32 : (c.toNat == 32) = false := beq_eq_false_iff_ne.mpr (by omega)
  have h13 : decide (c.toNat ≤ 13) = false := decide_eq_false (by omega)
  show (c.toNat == 32 || (decide (9 ≤ c.toNat) && decide (c.toNat ≤ 13))) = false
  rw [h32, h13, Bool.and_false, Bool.or_false]

theorem takeSign_of_ne {c : Char} {s : List Char} (hminus : c ≠ '-') (hplus : c ≠ '+') :
    takeSign (c :: s) = (false, c :: s) := by
  unfold takeSign
  split
  · next h => exact absurd (List.head_eq_of_cons_eq h) hminus
  · next h => exact absurd (List.head_eq_of_cons_eq h) hplus
  · rfl

/-! ## Integers -/

namespace Integer

theorem isDigit_of_mem_digits {n : Nat} {c : Char} (h : c ∈ digits n) : c.isDigit = true :=
  Nat.isDigit_of_mem_toDigits (by decide) (by decide) h

theorem digits_ne_nil (n : Nat) : digits n ≠ [] := Nat.toDigits_ne_nil

/-- The value of the digits of a number is that number. -/
theorem ofDigits_digits (n : Nat) : ofDigits 10 (digitValues (digits n)) = n := by
  rw [ofDigits_digitValues]
  exact Nat.ofDigitChars_toDigits (by decide) (by decide)

theorem length_digits_le_iff {n k : Nat} (hk : 0 < k) :
    (digits n).length ≤ k ↔ n < Nat.pow 10 k :=
  Nat.length_toDigits_le_iff (by decide) hk

/-- An integer of few digits can be shown. -/
theorem isPrintable_of_lt {n : Int} {k : Nat} (hk : k ≤ digitLimit) (h : n.natAbs < Nat.pow 10 k) :
    isPrintable n = true := by
  have hle (m : Nat) (hm : k ≤ m) : Nat.pow 10 k ≤ Nat.pow 10 m :=
    Nat.pow_le_pow_right (by decide) hm
  exact decide_eq_true (Nat.lt_of_lt_of_le h (hle digitLimit hk))

/-- A number starts with the digit zero only if it is zero. -/
theorem digits_eq_of_head {n : Nat} {s : List Char} (h : digits n = '0' :: s) : n = 0 ∧ s = [] := by
  induction n using Nat.strongRecOn generalizing s with
  | _ n ih =>
    rw [digits, Nat.toDigits_eq_if (by decide)] at h
    split at h
    · next hn =>
      -- one digit alone
      obtain ⟨hdigit, rfl⟩ := List.cons.inj h
      have hzero : ∀ m < 10, Nat.digitChar m = '0' → m = 0 := by decide
      exact ⟨hzero n hn hdigit, rfl⟩
    · next hn =>
      -- the digits in front of the last one start in the same way
      cases hq : Nat.toDigits 10 (n / 10) with
      | nil => exact absurd hq Nat.toDigits_ne_nil
      | cons c t =>
        rw [hq, List.cons_append] at h
        obtain ⟨rfl, -⟩ := List.cons.inj h
        have := (ih (n / 10) (by omega) hq).1
        omega

/-- The characters of decimal text: digits, perhaps behind a minus sign. -/
theorem mem_decimal {n : Int} {c : Char} (h : c ∈ decimal n) : c = '-' ∨ c.isDigit = true := by
  unfold decimal at h
  split at h
  · rcases List.mem_cons.mp h with rfl | h
    · exact .inl rfl
    · exact .inr (isDigit_of_mem_digits h)
  · exact .inr (isDigit_of_mem_digits h)

theorem takeSign_decimal (n : Int) : takeSign (decimal n) = (decide (n < 0), digits n.natAbs) := by
  unfold decimal
  split
  · next h => rw [takeSign, decide_eq_true h]
  · next h =>
    obtain ⟨c, s, hcs⟩ := List.exists_cons_of_ne_nil (digits_ne_nil n.natAbs)
    have hc : c.isDigit = true := isDigit_of_mem_digits (hcs ▸ List.mem_cons_self)
    rw [hcs, decide_eq_false h]
    refine takeSign_of_ne (fun e => ?_) fun e => ?_
    · rw [e] at hc; revert hc; decide
    · rw [e] at hc; revert hc; decide

/-- An integer is its size with its sign. -/
theorem signed_natAbs (n : Int) : (if decide (n < 0) then -(n.natAbs : Int) else n.natAbs) = n := by
  by_cases h : n < 0
  · rw [decide_eq_true h, if_pos rfl]; omega
  · rw [decide_eq_false h, if_neg Bool.false_ne_true]; omega

/-- An integer is read back from its decimal text. -/
theorem ofDecimal?_decimal {n : Int} (h : isPrintable n = true) :
    ofDecimal? (Text.ofChars (decimal n)) = some n := by
  have hdigit (c : Char) (hc : c ∈ decimal n) : 32 < c.toNat ∧ c.toNat < 127 := by
    rcases mem_decimal hc with rfl | hc
    · decide
    · have := isDigit_iff.mp hc
      omega
  -- there is no blank in the text that could be trimmed
  have htrim : trimNumeral (numeralChars (Text.ofChars (decimal n))) = decimal n := by
    rw [numeralChars_ofChars fun c hc => (hdigit c hc).2]
    exact trimNumeral_of_forall fun c hc => isNumeralBlank_eq_false (hdigit c hc).1
  have hlen : (digitValues (digits n.natAbs)).length ≤ digitLimit := by
    rw [digitValues, List.length_map]
    have hlt : n.natAbs < Nat.pow 10 digitLimit := of_decide_eq_true h
    exact (length_digits_le_iff (by decide)).mpr hlt
  have hread := underscored?_false_digits (digits_ne_nil n.natAbs) fun c => isDigit_of_mem_digits
  unfold ofDecimal?
  simp only [htrim, takeSign_decimal, hread, Option.bind_eq_bind, Option.bind_some]
  rw [if_neg (Nat.not_lt.mpr hlen), ofDigits_digits, signed_natAbs]

/-- Decimal text does not start like hexadecimal text. -/
theorem ofText?_decimal {n : Int} (h : isPrintable n = true) :
    ofText? (Text.ofChars (decimal n)) = some n := by
  have hx (c : Char) (hc : c = 'x' ∨ c = 'X') (s : Text) :
      Text.ofChars (decimal n) ≠ .scalar '0' :: .scalar c :: s := by
    intro e
    rw [Text.ofChars] at e
    have hmem : CodePoint.scalar c ∈ (decimal n).map .scalar := by rw [e]; simp
    obtain ⟨d, hd, hdc⟩ := List.mem_map.mp hmem
    obtain rfl := CodePoint.scalar.inj hdc
    rcases mem_decimal hd with rfl | hdigit
    · revert hc; decide
    · rcases hc with rfl | rfl <;> revert hdigit <;> decide
  rw [← ofDecimal?_decimal h, ofText?.eq_def]
  split
  · next s e => exact absurd e (hx 'x' (.inl rfl) s)
  · next s e => exact absurd e (hx 'X' (.inr rfl) s)
  · rfl

end Integer

end PropertyList
