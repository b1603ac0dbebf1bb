/-
  PropertyList.Proofs.DateTime

  Counting days and microseconds loses nothing, and neither does the binary form
  of a date that falls on a whole second.  The text of a date loses its
  microseconds and nothing else.
-/
import PropertyList.DateTime
import PropertyList.Proofs.Number.Digits
import PropertyList.Proofs.Number.Rounding

namespace PropertyList

/-! ## The calendar -/

namespace Calendar

variable {year month day n : Nat}

/-- Counting up, a quotient grows where the divisor divides. -/
theorem succ_div_eq (y d : Nat) : (y + 1) / d = y / d + if (y + 1) % d = 0 then 1 else 0 := by
  rw [Nat.succ_div]
  simp only [Nat.dvd_iff_mod_eq_zero]

/-- A year has 365 or 366 days. -/
theorem daysBeforeYear_succ (h : 1 ≤ year) :
    daysBeforeYear (year + 1) = daysBeforeYear year + (if isLeapYear year then 366 else 365) := by
  obtain ⟨y, rfl⟩ := Nat.exists_eq_add_of_le' h
  rw [daysBeforeYear, daysBeforeYear, isLeapYear]
  simp only [Nat.add_sub_cancel, succ_div_eq y, Bool.and_eq_true, Bool.or_eq_true,
    decide_eq_true_eq]
  -- a multiple of 400 is one of 100, and a multiple of 100 is one of 4
  by_cases h4 : (y + 1) % 4 = 0
  · by_cases h100 : (y + 1) % 100 = 0
    · by_cases h400 : (y + 1) % 400 = 0
      · simp [h4, h100, h400]
        omega
      · simp [h4, h100, h400]
        omega
    · have h400 : (y + 1) % 400 ≠ 0 := by omega
      simp [h4, h100, h400]
      omega
  · have h100 : (y + 1) % 100 ≠ 0 := by omega
    have h400 : (y + 1) % 400 ≠ 0 := by omega
    simp [h4, h100, h400]
    omega

theorem daysBeforeYear_mono {y z : Nat} (h : y ≤ z) : daysBeforeYear y ≤ daysBeforeYear z := by
  induction h with
  | refl => exact Nat.le_refl _
  | @step k _ ih =>
    rcases Nat.eq_zero_or_pos k with rfl | hk
    · exact ih
    · rw [Nat.succ_eq_add_one, daysBeforeYear_succ hk]
      omega

/-- The year that a day falls in is found again. -/
theorem yearOfDay_eq (hy : 1 ≤ year) (hlow : daysBeforeYear year ≤ n)
    (hhigh : n < daysBeforeYear (year + 1)) : yearOfDay n = year := by
  -- the estimate is at most one off in either direction
  have hguess : year ≤ n * 400 / 146097 + 1 + 1 ∧ n * 400 / 146097 + 1 ≤ year + 1 := by
    simp only [daysBeforeYear] at hlow hhigh
    omega
  obtain ⟨hge, hle⟩ := hguess
  unfold yearOfDay
  generalize n * 400 / 146097 + 1 = guess at hge hle ⊢
  have hcases : guess + 1 = year ∨ guess = year ∨ guess = year + 1 := by omega
  rcases hcases with rfl | rfl | rfl
  · have hprev : daysBeforeYear guess ≤ daysBeforeYear (guess + 1) :=
      daysBeforeYear_mono (Nat.le_succ guess)
    rw [if_neg (by omega), if_pos hlow]
  · rw [if_neg (by omega), if_neg (by omega)]
  · rw [if_pos hhigh, Nat.add_sub_cancel]

theorem daysBeforeMonth_succ (year : Nat) (h : 1 ≤ month) :
    daysBeforeMonth year (month + 1) = daysBeforeMonth year month + daysInMonth year month := by
  obtain ⟨m, rfl⟩ := Nat.exists_eq_add_of_le' h
  rw [daysBeforeMonth]

theorem daysBeforeMonth_mono (year : Nat) {m k : Nat} (h : m ≤ k) :
    daysBeforeMonth year m ≤ daysBeforeMonth year k := by
  induction h with
  | refl => exact Nat.le_refl _
  | @step k _ ih =>
    rcases Nat.eq_zero_or_pos k with rfl | hk
    · exact ih
    · rw [Nat.succ_eq_add_one, daysBeforeMonth_succ year hk]
      omega

/-- The twelve months make up the year. -/
theorem daysBeforeMonth_thirteen (year : Nat) :
    daysBeforeMonth year 13 = if isLeapYear year then 366 else 365 := by
  cases h : isLeapYear year <;> simp [daysBeforeMonth, daysInMonth, h]

/-- The month that a day of a year falls in is found again. -/
theorem monthOfDay_eq {last : Nat} (hmonth : 1 ≤ month) (hlast : month ≤ last)
    (hlow : daysBeforeMonth year month ≤ n) (hhigh : n < daysBeforeMonth year (month + 1)) :
    monthOfDay year n last = month := by
  induction hlast with
  | refl =>
    obtain ⟨m, rfl⟩ := Nat.exists_eq_add_of_le' hmonth
    rw [monthOfDay, if_pos hlow]
  | @step k hk ih =>
    have hmono : daysBeforeMonth year (month + 1) ≤ daysBeforeMonth year (k + 1) :=
      daysBeforeMonth_mono year (Nat.succ_le_succ hk)
    rw [Nat.succ_eq_add_one, monthOfDay, if_neg (by omega), ih]

theorem ofDayNumber_dayNumber (hyear : 1 ≤ year) (hmonth : 1 ≤ month) (hmonth' : month ≤ 12)
    (hday : 1 ≤ day) (hday' : day ≤ daysInMonth year month) :
    ofDayNumber (dayNumber year month day) = (year, month, day) := by
  have hlast := daysBeforeMonth_succ year hmonth
  have hinYear := daysBeforeMonth_mono year (Nat.succ_le_succ hmonth')
  rw [Nat.succ_eq_add_one, hlast, daysBeforeMonth_thirteen] at hinYear
  have hnext := daysBeforeYear_succ hyear
  -- the day lies in its year, and the rest of the number in its month
  have hyearOf : yearOfDay (dayNumber year month day) = year := by
    apply yearOfDay_eq hyear
    · rw [dayNumber]
      omega
    · rw [dayNumber, hnext]
      omega
  have hrest : dayNumber year month day - daysBeforeYear year =
      daysBeforeMonth year month + (day - 1) := by
    rw [dayNumber]
    omega
  have hmonthOf : monthOfDay year (daysBeforeMonth year month + (day - 1)) 12 = month := by
    apply monthOfDay_eq hmonth hmonth'
    · omega
    · rw [hlast]
      omega
  rw [ofDayNumber]
  simp only [hyearOf, hrest, hmonthOf, Nat.add_sub_cancel_left, Nat.sub_add_cancel hday]

theorem daysBeforeYear_yearOfDay_le (n : Nat) : daysBeforeYear (yearOfDay n) ≤ n := by
  rw [yearOfDay]
  split_ifs with hlow hhigh
  · -- the estimate is at most one too large
    rw [Nat.add_sub_cancel, daysBeforeYear]
    omega
  · exact hhigh
  · exact not_lt.mp hlow

theorem daysBeforeMonth_monthOfDay_le (year n last : Nat) :
    daysBeforeMonth year (monthOfDay year n last) ≤ n := by
  induction last with
  | zero => exact Nat.zero_le n
  | succ last ih =>
    rw [monthOfDay]
    split
    · next h => exact h
    · exact ih

/-- The date of a day has that many days before it. -/
theorem dayNumber_ofDayNumber (n : Nat) :
    dayNumber (ofDayNumber n).1 (ofDayNumber n).2.1 (ofDayNumber n).2.2 = n := by
  have hyear := daysBeforeYear_yearOfDay_le n
  have hmonth := daysBeforeMonth_monthOfDay_le (yearOfDay n) (n - daysBeforeYear (yearOfDay n)) 12
  rw [ofDayNumber, dayNumber]
  dsimp only
  omega

end Calendar

namespace DateTime

variable {t : DateTime}

/-! ## Microseconds -/

theorem ofMicroseconds_microseconds (h : t.IsValid) : ofMicroseconds t.microseconds = t := by
  obtain ⟨hy, -, hm, hm', hd, hd', hhour, hminute, hsecond, hmicro⟩ := h
  -- every field is the rest after all larger units
  have hday : t.microseconds / 86400000000 = Calendar.dayNumber t.year t.month t.day := by
    rw [microseconds]
    omega
  have hhour' : t.microseconds / 3600000000 % 24 = t.hour := by
    rw [microseconds]
    omega
  have hminute' : t.microseconds / 60000000 % 60 = t.minute := by
    rw [microseconds]
    omega
  have hsecond' : t.microseconds / 1000000 % 60 = t.second := by
    rw [microseconds]
    omega
  have hmicro' : t.microseconds % 1000000 = t.microsecond := by
    rw [microseconds]
    omega
  rw [ofMicroseconds, hday, Calendar.ofDayNumber_dayNumber hy hm hm' hd hd', hhour', hminute',
    hsecond', hmicro']

/-- The fields of a time add up to its microseconds. -/
theorem microseconds_ofMicroseconds (n : Nat) : (ofMicroseconds n).microseconds = n := by
  have hday := Calendar.dayNumber_ofDayNumber (n / 86400000000)
  rw [microseconds, ofMicroseconds]
  dsimp only
  rw [hday]
  omega

theorem sinceEpoch_of_ofSinceEpoch? {n : Int} (h : ofSinceEpoch? n = some t) :
    t.sinceEpoch = n ∧ t.IsValid := by
  rw [ofSinceEpoch?] at h
  split at h
  · cases h
  next hn =>
  rw [checked?] at h
  split at h
  · next hvalid =>
    obtain rfl := Option.some.inj h
    rw [sinceEpoch, microseconds_ofMicroseconds]
    exact ⟨by omega, hvalid⟩
  · cases h

/-- Only valid dates are found. -/
theorem isValid_of_ofSeconds? {x : Binary64} (h : ofSeconds? x = some t) : t.IsValid := by
  rw [ofSeconds?] at h
  split at h
  · exact (sinceEpoch_of_ofSinceEpoch? h).2
  · cases h

theorem ofSinceEpoch?_sinceEpoch (h : t.IsValid) : ofSinceEpoch? t.sinceEpoch = some t := by
  have hsum : t.sinceEpoch + (epoch.microseconds : Int) = (t.microseconds : Int) := by
    rw [sinceEpoch]
    omega
  rw [ofSinceEpoch?]
  simp only [hsum]
  rw [if_neg (by omega), Int.toNat_natCast, ofMicroseconds_microseconds h, checked?, if_pos h]

/-- All dates are less than `2 ^ 53` seconds away from 2001. -/
theorem natAbs_sinceEpoch_lt (h : t.IsValid) :
    t.sinceEpoch.natAbs < 1000000 * (2 * Binary64.exponentUnit) := by
  obtain ⟨-, hy, -, hm, -, hd, hhour, hminute, hsecond, hmicro⟩ := h
  have hmonth := Calendar.daysBeforeMonth_mono t.year (Nat.le_succ_of_le hm)
  rw [Nat.succ_eq_add_one, Calendar.daysBeforeMonth_thirteen] at hmonth
  have hdays : Calendar.daysInMonth t.year t.month ≤ 31 := by
    rw [Calendar.daysInMonth]
    split
    · split <;> omega
    · split <;> omega
  -- years up to 9999 have less than four million days
  have hnumber : Calendar.dayNumber t.year t.month t.day ≤ 4000000 := by
    have hleap : (if Calendar.isLeapYear t.year then 366 else 365) ≤ 366 := by split <;> omega
    rw [Calendar.dayNumber, Calendar.daysBeforeYear]
    omega
  have hepoch : epoch.microseconds = 63113904000000000 := by decide
  have hunit : Binary64.exponentUnit = 4503599627370496 := rfl
  rw [sinceEpoch, hepoch, microseconds, hunit]
  clear hepoch hunit hdays hmonth
  generalize Calendar.dayNumber t.year t.month t.day = days at hnumber ⊢
  omega

/-! ## Seconds -/

theorem roundToInt_zero (e : Int) : roundToInt 0 e = 0 := by
  have hpow : (0 : Int) < (1 : Int) <<< e.natAbs := by
    rw [Int.shiftLeft_eq, one_mul]
    positivity
  rw [roundToInt]
  split
  · exact Int.zero_shiftLeft _
  · simp only [Int.zero_ediv, Int.zero_emod]
    rw [if_pos (by omega)]

/-- A real that is a whole number of seconds has no part of a second. -/
theorem microsecondsOfSeconds_whole {x : Binary64} {n s : Nat}
    (hsig : x.significand = n * 2 ^ s) (hexp : x.exponent = -(s : Int)) :
    microsecondsOfSeconds x = (if x.isNegative then -(n : Int) else n) * 1000000 := by
  have hsigned : x.signedSignificand = (if x.isNegative then -(n : Int) else n) * 2 ^ s := by
    rw [Binary64.signedSignificand, hsig]
    push_cast
    split <;> ring
  generalize (if x.isNegative then -(n : Int) else n) = m at hsigned ⊢
  unfold microsecondsOfSeconds
  simp only [hexp, hsigned, Int.natAbs_neg, Int.natAbs_natCast]
  -- with an exponent below zero, the division by the power of two is exact
  rcases Nat.eq_zero_or_pos s with rfl | hs
  · simp
  · have hpow : (2 : Int) ^ s ≠ 0 := by positivity
    rw [if_neg (by omega), Int.shiftLeft_eq, one_mul, Int.mul_tdiv_cancel m hpow,
      Int.mul_tmod_left, zero_mul]
    have hpart : Binary64.roundDyadic 0 (-(s : Int)) = .ofMagnitude false 0 := by
      rw [Binary64.roundDyadic, if_pos (by omega)]
      rfl
    have hzero : (Binary64.ofMagnitude false 0).signedSignificand = 0 := by decide
    rw [hpart, hzero, roundToInt_zero, add_zero]

/-- The binary form of a valid date that falls on a whole second gives back that date. -/
theorem ofSeconds?_secondsSinceEpoch (h : t.IsValid) (hmicro : t.microsecond = 0) :
    ofSeconds? t.secondsSinceEpoch = some t := by
  have hwhole : ∃ n : Nat, t.sinceEpoch.natAbs = n * 1000000 := by
    refine ⟨t.sinceEpoch.natAbs / 1000000, (Nat.div_mul_cancel ?_).symm⟩
    have hepoch : epoch.microseconds = 63113904000000000 := by decide
    rw [sinceEpoch, hepoch, microseconds, hmicro]
    omega
  obtain ⟨n, hn⟩ := hwhole
  have hfound : t.secondsSinceEpoch.isFinite = true ∧
      microsecondsOfSeconds t.secondsSinceEpoch = t.sinceEpoch := by
    rw [secondsSinceEpoch]
    -- the date is 2001 itself, or its distance has at most 53 bits
    rcases Nat.eq_zero_or_pos n with rfl | hpos
    · have hzero : t.sinceEpoch = 0 := by omega
      rw [hzero]
      decide
    · have hlt := natAbs_sinceEpoch_lt h
      have hmillion : 1000000 ≠ 0 := by decide
      obtain ⟨s, hneg, hfin, hsig, hexp⟩ :=
        Binary64.roundRatio_whole (t.sinceEpoch < 0) hmillion hpos.ne' (by omega) hn
      refine ⟨hfin, ?_⟩
      rw [microsecondsOfSeconds_whole hsig hexp, hneg]
      by_cases hsign : t.sinceEpoch < 0
      · rw [decide_eq_true hsign, if_pos rfl]
        omega
      · rw [decide_eq_false hsign, if_neg Bool.false_ne_true]
        omega
  rw [ofSeconds?, if_pos hfound.1, hfound.2, ofSinceEpoch?_sinceEpoch h]

/-! ## Text -/

theorem isDigit_of_mem_padded {width n : Nat} {c : Char} (h : c ∈ padded width n) :
    c.isDigit = true := by
  rcases List.mem_append.mp h with h | h
  · rw [(List.mem_replicate.mp h).2]
    rfl
  · exact Integer.isDigit_of_mem_digits h

theorem length_padded {width n : Nat} (hwidth : 0 < width) (h : n < Nat.pow 10 width) :
    (padded width n).length = width := by
  have hle := (Integer.length_digits_le_iff hwidth).mpr h
  simp only [padded, List.length_append, List.length_replicate]
  omega

/-- Zeros in front do not change the value of digits. -/
theorem ofDigits_padded (width n : Nat) : ofDigits 10 (digitValues (padded width n)) = n := by
  rw [ofDigits_digitValues]
  simp only [padded]
  rw [Nat.ofDigitChars_append, Nat.ofDigitChars_replicate_zero, Nat.mul_zero, Integer.digits,
    Nat.ofDigitChars_toDigits (by decide) (by decide)]

/-- A field is read back, whatever follows it. -/
theorem takeField?_padded {width n : Nat} (hwidth : 0 < width) (h : n < Nat.pow 10 width)
    (s : List Char) : takeField? width (padded width n ++ s) = some (n, s) := by
  have hlen := length_padded hwidth h
  have htake : (padded width n ++ s).take width = padded width n := by
    rw [List.take_append_of_le_length (Nat.le_of_eq hlen.symm), List.take_of_length_le]
    exact Nat.le_of_eq hlen
  have hdrop : (padded width n ++ s).drop width = s := List.drop_left' hlen
  have hvalues : (digitValues (padded width n)).length = width := by
    rw [digitValues, List.length_map, hlen]
  unfold takeField?
  rw [htake, mapM_decimalDigit? fun c => isDigit_of_mem_padded]
  simp only [hvalues, if_true, ofDigits_padded, hdrop]

theorem takeFields_padded {n : Nat} (h : n < Nat.pow 10 2) (separator : Char)
    (separators s : List Char) :
    takeFields (separator :: separators) (separator :: (padded 2 n ++ s)) =
      (n :: (takeFields separators s).1, (takeFields separators s).2) := by
  rw [takeFields]
  simp only [if_true, takeField?_padded (by decide) h]

/-- The date without its microseconds. -/
def wholeSecond (t : DateTime) : DateTime := { t with microsecond := 0 }

theorem wholeSecond_isValid (h : t.IsValid) : t.wholeSecond.IsValid := by
  unfold IsValid wholeSecond at *
  exact ⟨h.1, h.2.1, h.2.2.1, h.2.2.2.1, h.2.2.2.2.1, h.2.2.2.2.2.1, h.2.2.2.2.2.2.1,
    h.2.2.2.2.2.2.2.1, h.2.2.2.2.2.2.2.2.1, Nat.zero_lt_succ _⟩

/-- The text of a valid date is read back as that date, to the second. -/
theorem ofChars?_toChars (h : t.IsValid) : ofChars? t.toChars = some t.wholeSecond := by
  obtain ⟨-, hyear, -, hmonth, -, hday, hhour, hminute, hsecond, -⟩ := id h
  have hdays : Calendar.daysInMonth t.year t.month ≤ 31 := by
    unfold Calendar.daysInMonth
    split_ifs <;> omega
  have hnil : takeFields [] ['Z'] = ([], ['Z']) := rfl
  -- every field has two digits, and stands in front of its separator
  have hfields : takeFields ['-', '-', 'T', ':', ':']
      ('-' :: (padded 2 t.month ++ '-' :: (padded 2 t.day ++ 'T' :: (padded 2 t.hour ++
        ':' :: (padded 2 t.minute ++ ':' :: (padded 2 t.second ++ ['Z'])))))) =
      ([t.month, t.day, t.hour, t.minute, t.second], ['Z']) := by
    rw [takeFields_padded (show t.month < 100 by omega),
      takeFields_padded (show t.day < 100 by omega),
      takeFields_padded (show t.hour < 100 by omega),
      takeFields_padded (show t.minute < 100 by omega),
      takeFields_padded (show t.second < 100 by omega), hnil]
  have hchars : t.toChars = padded 4 t.year ++ ('-' :: (padded 2 t.month ++ '-' ::
      (padded 2 t.day ++ 'T' :: (padded 2 t.hour ++ ':' :: (padded 2 t.minute ++
        ':' :: (padded 2 t.second ++ ['Z'])))))) := by
    simp only [toChars, List.append_assoc, List.cons_append]
  have hyear' : t.year < Nat.pow 10 4 := show t.year < 10000 by omega
  rw [ofChars?, hchars, takeField?_padded (by decide) hyear']
  simp only [Option.bind_eq_bind, Option.bind_some, hfields]
  exact if_pos (wholeSecond_isValid h)

/-- Only valid dates are read from text, and they fall on whole seconds. -/
theorem isValid_of_ofChars? {s : List Char} (h : ofChars? s = some t) :
    t.IsValid ∧ t.microsecond = 0 := by
  obtain ⟨⟨year, rest⟩, -, h⟩ := Option.bind_eq_some_iff.mp h
  dsimp only at h
  split at h
  · cases h
  split at h
  · rw [checked?] at h
    split at h
    · next hvalid =>
      obtain rfl := Option.some.inj h
      exact ⟨hvalid, rfl⟩
    · cases h
  · cases h

end DateTime

end PropertyList
