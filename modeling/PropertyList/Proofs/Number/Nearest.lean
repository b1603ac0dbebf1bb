/-
  PropertyList.Proofs.Number.Nearest

  The rational numbers that reals stand for, and how far rounding can take a fraction
  away from itself: half a unit of the last place.  A fraction that is nearer than
  that to a real is rounded to it.
-/
import PropertyList.Proofs.Number.Rounding

namespace PropertyList

namespace Binary64

variable {num den : Nat} {k : Int}

/-! ## Whole numbers -/

/-- A rest less than one is dropped below a half and counts as one above; it does not matter which
    of the two it is for a half. -/
theorem abs_sub_nearest_le {rest tie : ℚ} {low high : Prop} [Decidable low] [Decidable high]
    (hnonneg : 0 ≤ rest) (hlt : rest < 1) (hlow : low ↔ rest < 1 / 2) (hhigh : high ↔ 1 / 2 < rest)
    (htie : tie = 0 ∨ tie = 1) : |rest - if low then 0 else if high then 1 else tie| ≤ 1 / 2 := by
  rw [abs_le]
  split_ifs with h h'
  · have hbelow := hlow.mp h
    constructor <;> linarith
  · have habove := hhigh.mp h'
    constructor <;> linarith
  · have hle := not_lt.mp fun hless => h (hlow.mpr hless)
    have hge := not_lt.mp fun hmore => h' (hhigh.mpr hmore)
    rcases htie with rfl | rfl
    · constructor <;> linarith
    · constructor <;> linarith

/-- Rounding to a whole number errs by half at most. -/
theorem abs_sub_roundHalfEven_le (num : Nat) (hden : 0 < den) :
    |(num : ℚ) / den - roundHalfEven num den| ≤ 1 / 2 := by
  have hden' : (0 : ℚ) < den := by exact_mod_cast hden
  have hsplit : (num : ℚ) / den = (num / den : Nat) + ((num % den : Nat) : ℚ) / den := by
    rw [div_eq_iff hden'.ne', add_mul, div_mul_cancel₀ _ hden'.ne']
    exact_mod_cast (Nat.div_add_mod' num den).symm
  have hround : (roundHalfEven num den : ℚ) = (num / den : Nat) +
      if 2 * (num % den) < den then 0 else if den < 2 * (num % den) then 1
        else ((num / den % 2 : Nat) : ℚ) := by
    rw [roundHalfEven]
    split_ifs <;> push_cast <;> ring
  rw [hsplit, hround, add_sub_add_left_eq_sub]
  apply abs_sub_nearest_le
  · positivity
  · rw [div_lt_one hden']
    exact_mod_cast Nat.mod_lt num hden
  · rw [div_lt_div_iff₀ hden' two_pos, mul_comm, one_mul]
    exact_mod_cast Iff.rfl
  · rw [div_lt_div_iff₀ two_pos hden', mul_comm _ (2 : ℚ), one_mul]
    exact_mod_cast Iff.rfl
  -- a tie goes to the even neighbour, which is one of the two
  · rcases Nat.mod_two_eq_zero_or_one (num / den) with h | h
    · exact .inl (by rw [h, Nat.cast_zero])
    · exact .inr (by rw [h, Nat.cast_one])

/-- What is nearer than half to a whole number is rounded to it. -/
theorem roundHalfEven_eq_of_abs_lt {m : Nat} (hden : 0 < den)
    (h : |(num : ℚ) / den - m| < 1 / 2) : roundHalfEven num den = m := by
  have herror := abs_sub_roundHalfEven_le num hden
  rw [abs_lt] at h
  rw [abs_le] at herror
  have hlow : (roundHalfEven num den : ℚ) < m + 1 := by linarith
  have hhigh : (m : ℚ) < roundHalfEven num den + 1 := by linarith
  have hlow' : roundHalfEven num den < m + 1 := by exact_mod_cast hlow
  have hhigh' : m < roundHalfEven num den + 1 := by exact_mod_cast hhigh
  omega

/-! ## The number of a real -/

/-- The number that a finite real stands for. -/
def toRat (x : Binary64) : ℚ := x.signedSignificand * 2 ^ x.exponent

/-- A sign as a factor. -/
def signFactor (negative : Bool) : ℚ := if negative then -1 else 1

theorem abs_signFactor (negative : Bool) : |signFactor negative| = 1 := by
  cases negative with
  | false => exact abs_one
  | true => rw [signFactor, if_pos rfl, abs_neg, abs_one]

theorem toRat_eq (x : Binary64) :
    x.toRat = signFactor x.isNegative * (x.significand * 2 ^ x.exponent) := by
  rw [toRat, signedSignificand, signFactor]
  split
  · push_cast
    ring
  · push_cast
    ring

/-- The number that is given by a significand, perhaps one more than the largest, and an exponent. -/
theorem toRat_ofMagnitude (negative : Bool) {j m : Nat} (hj : j ≤ 2044)
    (hm : m ≤ 2 * exponentUnit) (hlow : j = 0 ∨ exponentUnit ≤ m) :
    (ofMagnitude negative (j * exponentUnit + m)).isFinite = true ∧
      (ofMagnitude negative (j * exponentUnit + m)).toRat =
        signFactor negative * (m * 2 ^ ((j : Int) - 1074)) := by
  by_cases hfull : m = 2 * exponentUnit
  · -- the carry goes to the exponent
    have hcarry : j * exponentUnit + m = (j + 1) * exponentUnit + exponentUnit := by
      rw [hfull]
      ring
    obtain ⟨hneg, hfinite, hsig, hexp⟩ := fields_ofMagnitude negative (j := j + 1)
      (m := exponentUnit) (by omega) le_rfl (by decide)
    rw [hcarry]
    refine ⟨hfinite, ?_⟩
    have hpow : (2 : ℚ) ^ ((j + 1 : Nat) - 1074 : Int) = 2 * 2 ^ ((j : Int) - 1074) := by
      rw [show ((j + 1 : Nat) - 1074 : Int) = 1 + ((j : Int) - 1074) by push_cast; ring,
        zpow_add₀ two_ne_zero, zpow_one]
    rw [toRat_eq, hneg, hsig, hexp, hpow, hfull]
    push_cast
    ring
  by_cases hnormal : exponentUnit ≤ m
  · obtain ⟨hneg, hfinite, hsig, hexp⟩ :=
      fields_ofMagnitude negative (j := j) (by omega) hnormal (by omega)
    refine ⟨hfinite, ?_⟩
    rw [toRat_eq, hneg, hsig, hexp]
  · obtain rfl := hlow.resolve_right hnormal
    have hlt : m < exponentUnit := not_le.mp hnormal
    have hsign : m < signUnit := Nat.lt_trans hlt (by decide)
    rw [Nat.zero_mul, Nat.zero_add]
    have hfield : (ofMagnitude negative m).exponentField = 0 := by
      rw [exponentField, magnitude_ofMagnitude hsign, Nat.div_eq_of_lt hlt]
    have hfraction : (ofMagnitude negative m).fraction = m := by
      rw [fraction, magnitude_ofMagnitude hsign, Nat.mod_eq_of_lt hlt]
    constructor
    · rw [isFinite, magnitude_ofMagnitude hsign]
      exact decide_eq_true (Nat.lt_trans hlt (by decide))
    · rw [toRat_eq, isNegative_ofMagnitude hsign, significand, exponent, hfield, if_pos rfl,
        if_pos rfl, hfraction]
      rfl

/-! ## Rounding a fraction -/

/-- The units of a fraction at the exponent at which it is rounded: at most as many as a
    significand can have, and all its bits unless the exponent is the smallest. -/
theorem units_bounds (hnum : num ≠ 0) (hden : den ≠ 0) (hk : roundingExponent num den = k) :
    (num : ℚ) / den / 2 ^ k < 2 * exponentUnit ∧
      (k = -1074 ∨ (exponentUnit : ℚ) ≤ num / den / 2 ^ k) := by
  have hpos : (0 : ℚ) < num / den := by positivity
  have hpow : (0 : ℚ) < 2 ^ k := by positivity
  have hunit : (exponentUnit : ℚ) = 2 ^ (52 : Int) := by norm_num [exponentUnit]
  rw [roundingExponent_eq hnum hden] at hk
  constructor
  · have hlog : Int.log 2 ((num : ℚ) / den) < k + 53 := by omega
    have hlt := (Int.lt_zpow_iff_log_lt Nat.one_lt_two hpos).mpr hlog
    rw [div_lt_iff₀ hpow, hunit]
    calc (num : ℚ) / den
      _ < (2 : ℕ) ^ (k + 53) := hlt
      _ = 2 * 2 ^ (52 : Int) * 2 ^ k := by
        rw [Nat.cast_ofNat, zpow_add₀ two_ne_zero]
        ring
  · by_cases hmin : k = -1074
    · exact .inl hmin
    · have hlog : k + 52 ≤ Int.log 2 ((num : ℚ) / den) := by omega
      have hle := (Int.zpow_le_iff_le_log Nat.one_lt_two hpos).mpr hlog
      refine .inr ?_
      rw [le_div_iff₀ hpow, hunit]
      calc (2 : ℚ) ^ (52 : Int) * 2 ^ k
        _ = (2 : ℕ) ^ (k + 52) := by
          rw [Nat.cast_ofNat, zpow_add₀ two_ne_zero, mul_comm]
        _ ≤ num / den := hle

/-- A fraction is rounded to the nearest number of units, which is a significand or one more than
    the largest. -/
theorem exists_roundRatio_eq (negative : Bool) (hnum : num ≠ 0) (hden : den ≠ 0)
    (hk : roundingExponent num den = k) :
    ∃ m : Nat,
      roundRatio negative num den =
        ofMagnitude negative (min ((k + 1074).toNat * exponentUnit + m) infinityMagnitude) ∧
      |(num : ℚ) / den / 2 ^ k - m| ≤ 1 / 2 ∧ m ≤ 2 * exponentUnit ∧
      (k = -1074 ∨ exponentUnit ≤ m) := by
  obtain ⟨hupper, hlower⟩ := units_bounds hnum hden hk
  have herror := abs_sub_roundHalfEven_le (scaled num den k).1
    (scaled_den_pos num k (Nat.pos_of_ne_zero hden))
  rw [scaled_ratio] at herror
  have hround : roundRatio negative num den = ofMagnitude negative (min ((k + 1074).toNat *
      exponentUnit + roundHalfEven (scaled num den k).1 (scaled num den k).2)
        infinityMagnitude) := by
    rw [roundRatio, if_neg hnum, hk]
  generalize roundHalfEven (scaled num den k).1 (scaled num den k).2 = m at herror hround
  refine ⟨m, hround, herror, ?_, ?_⟩
  · rw [abs_le] at herror
    have hlt : (m : ℚ) < (2 * exponentUnit : Nat) + 1 := by
      push_cast
      linarith
    exact Nat.lt_succ_iff.mp (by exact_mod_cast hlt)
  · refine hlower.imp_right fun hunits => ?_
    rw [abs_le] at herror
    have hlt : (exponentUnit : ℚ) < m + 1 := by linarith
    exact Nat.lt_succ_iff.mp (by exact_mod_cast hlt)

/-- A fraction below a power of two is rounded to a number that is no further from it than half a
    unit of the last of 53 places. -/
theorem abs_toRat_roundRatio_sub_le (negative : Bool) (hden : den ≠ 0) {e : Int} (hlow : -1021 ≤ e)
    (hhigh : e ≤ 970) (h : (num : ℚ) / den < 2 ^ e) :
    (roundRatio negative num den).isFinite = true ∧
      |(roundRatio negative num den).toRat - signFactor negative * (num / den)| ≤ 2 ^ (e - 54) := by
  by_cases hnum : num = 0
  · subst hnum
    obtain ⟨hfinite, hzero⟩ :=
      toRat_ofMagnitude negative (j := 0) (m := 0) (by omega) (Nat.zero_le _) (.inl rfl)
    rw [Nat.zero_mul, Nat.zero_add] at hfinite hzero
    rw [roundRatio, if_pos rfl, hzero]
    refine ⟨hfinite, ?_⟩
    simp only [Nat.cast_zero, zero_mul, mul_zero, zero_div, sub_zero, abs_zero]
    positivity
  obtain ⟨k, hk⟩ : ∃ k, roundingExponent num den = k := ⟨_, rfl⟩
  obtain ⟨m, hround, herror, hm, hlower⟩ := exists_roundRatio_eq negative hnum hden hk
  have hpos : (0 : ℚ) < num / den := by positivity
  have hexponent : k ≤ e - 53 ∧ -1074 ≤ k := by
    rw [roundingExponent_eq hnum hden] at hk
    have hlog : Int.log 2 ((num : ℚ) / den) < e :=
      (Int.lt_zpow_iff_log_lt Nat.one_lt_two hpos).mp (by exact_mod_cast h)
    omega
  have hm' : (k + 1074).toNat = 0 ∨ exponentUnit ≤ m := hlower.imp_left fun hmin => by omega
  have hj : (k + 1074).toNat ≤ 1992 := by omega
  have hmin : (k + 1074).toNat * exponentUnit + m ≤ infinityMagnitude := by
    simp only [exponentUnit, infinityMagnitude] at hm ⊢
    omega
  obtain ⟨hfinite, hvalue⟩ := toRat_ofMagnitude negative (by omega) hm hm'
  rw [hround, Nat.min_eq_left hmin, hvalue]
  refine ⟨hfinite, ?_⟩
  have hcast : ((k + 1074).toNat : Int) - 1074 = k := by omega
  have hpow : (0 : ℚ) < 2 ^ k := by positivity
  calc |signFactor negative * (m * 2 ^ (((k + 1074).toNat : Int) - 1074)) -
        signFactor negative * (num / den)|
    _ = |signFactor negative| * (|(m : ℚ) - num / den / 2 ^ k| * 2 ^ k) := by
      have hsplit : (m : ℚ) * 2 ^ k - num / den = (m - num / den / 2 ^ k) * 2 ^ k := by
        rw [sub_mul, div_mul_cancel₀ _ hpow.ne']
      rw [hcast, ← mul_sub, hsplit, abs_mul, abs_mul, abs_of_pos hpow]
    _ ≤ 1 * (1 / 2 * 2 ^ k) := by
      rw [abs_signFactor]
      have hhalf : |(m : ℚ) - num / den / 2 ^ k| ≤ 1 / 2 := (abs_sub_comm _ _).trans_le herror
      gcongr
    _ = 2 ^ (k - 1) := by
      rw [zpow_sub_one₀ two_ne_zero]
      ring
    _ ≤ 2 ^ (e - 54) := zpow_le_zpow_right₀ one_le_two (by omega)

/-- The sign of an integer and its distance from zero. -/
theorem signFactor_mul_natAbs (m : Int) : signFactor (m < 0) * (m.natAbs : ℚ) = m := by
  rw [signFactor]
  by_cases h : m < 0
  · rw [if_pos (decide_eq_true h), Nat.cast_natAbs, Int.cast_abs, abs_of_neg (by exact_mod_cast h)]
    ring
  · rw [decide_eq_false h, if_neg Bool.false_ne_true, Nat.cast_natAbs, Int.cast_abs,
      abs_of_nonneg (by exact_mod_cast not_lt.mp h), one_mul]

/-- The same for an integer number of units that are less than one. -/
theorem abs_toRat_roundDyadic_sub_le {m : Int} (hk : k < 0) {e : Int} (hlow : -1021 ≤ e)
    (hhigh : e ≤ 970) (h : |(m : ℚ) * 2 ^ k| < 2 ^ e) :
    |(roundDyadic m k).toRat - m * 2 ^ k| ≤ 2 ^ (e - 54) := by
  have hden : ((1 <<< k.natAbs : Nat) : ℚ) = (2 ^ k)⁻¹ := by
    rw [Nat.shiftLeft_eq, one_mul]
    push_cast
    rw [← zpow_natCast, Int.ofNat_natAbs_of_nonpos hk.le, zpow_neg]
  have hratio : (m.natAbs : ℚ) / (1 <<< k.natAbs : Nat) = m.natAbs * 2 ^ k := by
    rw [hden, div_inv_eq_mul]
  have hpow : (0 : ℚ) < 2 ^ k := by positivity
  have hbound : (m.natAbs : ℚ) / (1 <<< k.natAbs : Nat) < 2 ^ e := by
    rw [hratio, Nat.cast_natAbs, Int.cast_abs, ← abs_of_pos hpow, ← abs_mul]
    exact h
  have hne : 1 <<< k.natAbs ≠ 0 := by
    rw [Nat.shiftLeft_eq, one_mul]
    positivity
  rw [roundDyadic, if_pos hk]
  have herror := (abs_toRat_roundRatio_sub_le (m < 0) hne hlow hhigh hbound).2
  rw [hratio, ← mul_assoc, signFactor_mul_natAbs] at herror
  exact herror

/-- A fraction that is nearer to a real than half a unit of its last place is rounded to it, if it
    cannot fall below the power of two where smaller units begin. -/
theorem roundRatio_eq_of_abs_lt {x : Binary64} (hx : x.isFinite = true) (hden : den ≠ 0)
    (hsig : exponentUnit < x.significand)
    (h : |(num : ℚ) / den / 2 ^ x.exponent - x.significand| < 1 / 2) :
    roundRatio x.isNegative num den = x := by
  have hlt := x.significand_lt
  have hpow : (0 : ℚ) < 2 ^ x.exponent := by positivity
  have hunit : (exponentUnit : ℚ) = 2 ^ (52 : Int) := by norm_num [exponentUnit]
  rw [abs_lt] at h
  have hsig' : (exponentUnit : ℚ) + 1 ≤ x.significand := by exact_mod_cast hsig
  have hlt' : (x.significand : ℚ) + 1 ≤ 2 * exponentUnit := by exact_mod_cast hlt
  have hnum : num ≠ 0 := by
    rintro rfl
    rw [Nat.cast_zero, zero_div, zero_div] at h
    have hpos : (0 : ℚ) < exponentUnit := by norm_num [exponentUnit]
    linarith
  -- so the fraction has the exponent of the real
  have hexponent : roundingExponent num den = x.exponent := by
    have hlower : (2 : ℚ) ^ (x.exponent + 52) ≤ num / den := by
      have hle : (exponentUnit : ℚ) ≤ num / den / 2 ^ x.exponent := by linarith
      rwa [le_div_iff₀ hpow, hunit, ← zpow_add₀ two_ne_zero, add_comm] at hle
    have hupper : (num : ℚ) / den < 2 ^ (x.exponent + 52 + 1) := by
      have hless : (num : ℚ) / den / 2 ^ x.exponent < 2 * exponentUnit := by linarith
      rw [div_lt_iff₀ hpow, hunit] at hless
      rw [zpow_add_one₀ two_ne_zero, zpow_add₀ two_ne_zero]
      linarith
    have hmin : -1074 ≤ x.exponent := by
      rcases x.significand_normal with ⟨-, hmin⟩ | hmin
      · exact hmin
      · exact hmin.ge
    rw [roundingExponent_eq hnum hden, log_eq_of_bounds hlower hupper]
    omega
  have hround : roundHalfEven (scaled num den x.exponent).1 (scaled num den x.exponent).2 =
      x.significand := by
    apply roundHalfEven_eq_of_abs_lt (scaled_den_pos num _ (Nat.pos_of_ne_zero hden))
    rw [scaled_ratio, abs_lt]
    exact h
  rw [isFinite, decide_eq_true_eq] at hx
  rw [roundRatio, if_neg hnum, hexponent]
  dsimp only
  rw [hround, ← magnitude_eq, Nat.min_eq_left hx.le, ofMagnitude_eta]

end Binary64

end PropertyList
