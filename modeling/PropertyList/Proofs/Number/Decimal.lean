/-
  PropertyList.Proofs.Number.Decimal

  A real is read back from its text.  Rounding a decimal depends only on the number
  that the decimal stands for, and the text of a real stands for a decimal that
  rounds to it, in whatever way its digits are laid out.
-/
import PropertyList.Number.Decimal
import PropertyList.Proofs.Number.Digits
import PropertyList.Proofs.Number.Rounding

namespace PropertyList

namespace Binary64

variable {num den : Nat} {negative : Bool}

/-! ## Rounding far out -/

/-- What is less than half of the smallest number becomes zero. -/
theorem roundRatio_of_lt (hden : den ≠ 0) (h : (num : ℚ) / den < 2 ^ (-1075 : Int)) :
    roundRatio negative num den = ofMagnitude negative 0 := by
  by_cases hnum : num = 0
  · rw [roundRatio, if_pos hnum]
  have hpos : (0 : ℚ) < (num : ℚ) / den := by positivity
  have hlog : Int.log 2 ((num : ℚ) / den) < -1075 :=
    (Int.lt_zpow_iff_log_lt Nat.one_lt_two hpos).mp h
  have hexp : roundingExponent num den = -1074 := by
    rw [roundingExponent_eq hnum hden]
    omega
  have hscaled := scaled_ratio num den (-1074)
  have hdpos := scaled_den_pos num (-1074) (Nat.pos_of_ne_zero hden)
  -- at the smallest exponent there is less than half a unit
  have hhalf : 2 * (scaled num den (-1074)).1 < (scaled num den (-1074)).2 := by
    have hdpos' : (0 : ℚ) < (scaled num den (-1074)).2 := by exact_mod_cast hdpos
    have hlt : ((scaled num den (-1074)).1 : ℚ) / (scaled num den (-1074)).2 < 1 / 2 := by
      rw [hscaled, div_lt_iff₀ (by positivity)]
      calc (num : ℚ) / den
        _ < 2 ^ (-1075 : Int) := h
        _ = 1 / 2 * 2 ^ (-1074 : Int) := by
          rw [show (-1075 : Int) = -1 + -1074 by norm_num, zpow_add₀ two_ne_zero]
          norm_num
    rw [div_lt_div_iff₀ hdpos' two_pos, one_mul, mul_comm] at hlt
    exact_mod_cast hlt
  have hround : roundHalfEven (scaled num den (-1074)).1 (scaled num den (-1074)).2 = 0 := by
    have hlt : (scaled num den (-1074)).1 < (scaled num den (-1074)).2 := by omega
    rw [roundHalfEven, Nat.div_eq_of_lt hlt, Nat.mod_eq_of_lt hlt]
    exact if_pos hhalf
  rw [roundRatio, if_neg hnum, hexp]
  simp only [hround]
  rfl

/-- What is beyond all numbers becomes infinity. -/
theorem roundRatio_of_le (hden : den ≠ 0) (h : (2 : ℚ) ^ (1024 : Int) ≤ (num : ℚ) / den) :
    roundRatio negative num den = infinity negative := by
  have hpos : (0 : ℚ) < (num : ℚ) / den := lt_of_lt_of_le (by positivity) h
  have hnum : num ≠ 0 := by
    rintro rfl
    rw [Nat.cast_zero, zero_div] at hpos
    exact lt_irrefl _ hpos
  have hlog : 1024 ≤ Int.log 2 ((num : ℚ) / den) :=
    (Int.zpow_le_iff_le_log Nat.one_lt_two hpos).mp h
  have hexp := roundingExponent_eq hnum hden
  generalize hk : roundingExponent num den = k at hexp
  have hklow : 972 ≤ k := by omega
  have hkexact : k = Int.log 2 ((num : ℚ) / den) - 52 := by omega
  -- the whole part has all its bits
  have hscaled := scaled_ratio num den k
  have hdpos := scaled_den_pos num k (Nat.pos_of_ne_zero hden)
  have hwhole : exponentUnit ≤ (scaled num den k).1 / (scaled num den k).2 := by
    have hdpos' : (0 : ℚ) < (scaled num den k).2 := by exact_mod_cast hdpos
    rw [Nat.le_div_iff_mul_le hdpos]
    have hle : (exponentUnit : ℚ) ≤ ((scaled num den k).1 : ℚ) / (scaled num den k).2 := by
      rw [hscaled, le_div_iff₀ (by positivity)]
      have hunit : (exponentUnit : ℚ) = 2 ^ (52 : Int) := by norm_num [exponentUnit]
      rw [hunit, ← zpow_add₀ two_ne_zero, hkexact, add_sub_cancel]
      exact Int.zpow_log_le_self Nat.one_lt_two hpos
    rw [le_div_iff₀ hdpos'] at hle
    exact_mod_cast hle
  have hround : exponentUnit ≤ roundHalfEven (scaled num den k).1 (scaled num den k).2 := by
    rw [roundHalfEven]
    split_ifs <;> omega
  -- the exponent alone is beyond the largest finite one
  have hmin : min ((k + 1074).toNat * exponentUnit +
      roundHalfEven (scaled num den k).1 (scaled num den k).2) infinityMagnitude =
        infinityMagnitude := by
    refine Nat.min_eq_right ?_
    have hexponent : 2046 * exponentUnit ≤ (k + 1074).toNat * exponentUnit :=
      Nat.mul_le_mul_right _ (by omega)
    simp only [infinityMagnitude] at hround hexponent ⊢
    omega
  rw [roundRatio, if_neg hnum, hk, infinity]
  simp only [hmin]

/-! ## Rounding decimals -/

theorem two_zpow_le_ten_pow (k : Nat) : (2 : ℚ) ^ (3 * k : Int) ≤ (Nat.pow 10 k : Nat) := by
  have hcast : ((Nat.pow 10 k : Nat) : ℚ) = 10 ^ k := Nat.cast_pow 10 k
  rw [hcast, zpow_mul, zpow_natCast]
  gcongr
  norm_num

theorem ten_pow_pos (k : Nat) : (0 : ℚ) < (Nat.pow 10 k : Nat) := by
  exact_mod_cast Nat.pow_pos (by norm_num)

theorem ten_pow_ne_zero (k : Nat) : Nat.pow 10 k ≠ 0 := pow_ne_zero k (by norm_num)

/-- Decimals that are settled as too small are rounded like the others. -/
theorem roundDecimal_of_neg {digits : Nat} {exponent : Int} (hdigits : digits ≠ 0)
    (hneg : exponent < 0) : roundDecimal negative digits exponent =
      roundRatio negative digits (Nat.pow 10 exponent.natAbs) := by
  rw [roundDecimal, if_neg hdigits, if_pos hneg]
  split
  next hsmall =>
    refine (roundRatio_of_lt (ten_pow_ne_zero _) ?_).symm
    have hlog : (digits : ℚ) < 2 ^ ((digits.log2 : Int) + 1) := (log2_bounds hdigits).2
    rw [div_lt_iff₀ (ten_pow_pos _)]
    calc (digits : ℚ)
      _ < 2 ^ ((digits.log2 : Int) + 1) := hlog
      _ ≤ 2 ^ (-1075 + 3 * exponent.natAbs : Int) := zpow_le_zpow_right₀ one_le_two (by omega)
      _ = 2 ^ (-1075 : Int) * 2 ^ (3 * exponent.natAbs : Int) := zpow_add₀ two_ne_zero _ _
      _ ≤ 2 ^ (-1075 : Int) * ((Nat.pow 10 exponent.natAbs : Nat) : ℚ) :=
        mul_le_mul_of_nonneg_left (two_zpow_le_ten_pow _) (by positivity)
  next => rfl

/-- Decimals that are settled as too large are rounded like the others. -/
theorem roundDecimal_of_nonneg {digits : Nat} {exponent : Int} (hdigits : digits ≠ 0)
    (hneg : ¬exponent < 0) : roundDecimal negative digits exponent =
      roundRatio negative (digits * Nat.pow 10 exponent.natAbs) 1 := by
  rw [roundDecimal, if_neg hdigits, if_neg hneg]
  split
  next hlarge =>
    refine (roundRatio_of_le one_ne_zero ?_).symm
    have hone : (1 : ℚ) ≤ digits := by exact_mod_cast Nat.one_le_iff_ne_zero.mpr hdigits
    rw [Nat.cast_one, div_one, Nat.cast_mul]
    calc (2 : ℚ) ^ (1024 : Int)
      _ ≤ 2 ^ (3 * exponent.natAbs : Int) := zpow_le_zpow_right₀ one_le_two (by omega)
      _ ≤ ((Nat.pow 10 exponent.natAbs : Nat) : ℚ) := two_zpow_le_ten_pow _
      _ ≤ digits * ((Nat.pow 10 exponent.natAbs : Nat) : ℚ) :=
        le_mul_of_one_le_left (ten_pow_pos _).le hone
  next => rfl

theorem ten_zpow_of_neg {exponent : Int} (h : exponent < 0) :
    (10 : ℚ) ^ exponent = ((Nat.pow 10 exponent.natAbs : Nat) : ℚ)⁻¹ := by
  have habs : exponent = -(exponent.natAbs : Int) := by omega
  rw [habs, zpow_neg, zpow_natCast, Int.natAbs_neg, Int.natAbs_natCast]
  exact congrArg _ (Nat.cast_pow 10 _).symm

theorem ten_zpow_of_nonneg {exponent : Int} (h : ¬exponent < 0) :
    (10 : ℚ) ^ exponent = ((Nat.pow 10 exponent.natAbs : Nat) : ℚ) := by
  have habs : exponent = (exponent.natAbs : Int) := by omega
  rw [habs, zpow_natCast, Int.natAbs_natCast]
  exact (Nat.cast_pow 10 _).symm

/-- Rounding a decimal is rounding the number that it stands for. -/
theorem roundDecimal_eq {digits : Nat} {exponent : Int} (hden : den ≠ 0)
    (h : (num : ℚ) / den = digits * 10 ^ exponent) :
    roundDecimal negative digits exponent = roundRatio negative num den := by
  by_cases hdigits : digits = 0
  · rw [hdigits, Nat.cast_zero, zero_mul] at h
    rw [roundDecimal, if_pos hdigits, roundRatio_of_lt hden]
    rw [h]
    positivity
  by_cases hneg : exponent < 0
  · rw [roundDecimal_of_neg hdigits hneg]
    refine roundRatio_congr negative (ten_pow_ne_zero _) hden ?_
    rw [h, ten_zpow_of_neg hneg, div_eq_mul_inv]
  · rw [roundDecimal_of_nonneg hdigits hneg]
    refine roundRatio_congr negative one_ne_zero hden ?_
    rw [h, ten_zpow_of_nonneg hneg, Nat.cast_mul, Nat.cast_one, div_one]

/-- A decimal as a fraction. -/
theorem exists_ratio (digits : Nat) (exponent : Int) :
    ∃ num den : Nat, den ≠ 0 ∧ (num : ℚ) / den = digits * 10 ^ exponent := by
  refine ⟨digits * 10 ^ exponent.toNat, 10 ^ (-exponent).toNat, by positivity, ?_⟩
  rw [Nat.cast_mul, Nat.cast_pow, Nat.cast_pow, Nat.cast_ofNat, mul_div_assoc, ← zpow_natCast,
    ← zpow_natCast, ← zpow_sub₀ (by norm_num)]
  congr 2
  omega

/-- Decimals that stand for the same number are rounded alike. -/
theorem roundDecimal_congr {digits digits' : Nat} {exponent exponent' : Int}
    (h : (digits : ℚ) * 10 ^ exponent = digits' * 10 ^ exponent') :
    roundDecimal negative digits exponent = roundDecimal negative digits' exponent' := by
  obtain ⟨num, den, hden, hratio⟩ := exists_ratio digits exponent
  rw [roundDecimal_eq hden hratio, roundDecimal_eq hden (hratio.trans h)]

/-- The exact decimal of a finite real is rounded to that real. -/
theorem roundDecimal_self {x : Binary64} (hx : x.isFinite = true) {digits : Nat} {exponent : Int}
    (h : (digits : ℚ) * 10 ^ exponent = x.significand * 2 ^ x.exponent) :
    roundDecimal x.isNegative digits exponent = x := by
  obtain ⟨num, den, hden, hratio⟩ := exists_ratio digits exponent
  rw [roundDecimal_eq hden hratio]
  exact roundRatio_self hx hden (hratio.trans h)

/-! ## The shortest decimal -/

theorem exactDecimal_value (x : Binary64) :
    (x.exactDecimal.digits : ℚ) * 10 ^ x.exactDecimal.exponent = x.significand * 2 ^ x.exponent := by
  rw [exactDecimal]
  split
  next hneg =>
    have habs : x.exponent = -(x.exponent.natAbs : Int) := by omega
    have hfive : ((Nat.pow 5 x.exponent.natAbs : Nat) : ℚ) = 5 ^ x.exponent.natAbs :=
      Nat.cast_pow 5 _
    generalize x.exponent.natAbs = k at habs hfive
    rw [habs, Nat.cast_mul, hfive, zpow_neg, zpow_neg, zpow_natCast, zpow_natCast,
      show (10 : ℚ) = 5 * 2 by norm_num, mul_pow]
    field_simp
  next hneg =>
    have habs : x.exponent = (x.exponent.natAbs : Int) := by omega
    generalize x.exponent.natAbs = k at habs
    rw [habs, Nat.shiftLeft_eq, Nat.cast_mul, Nat.cast_pow, Nat.cast_ofNat, zpow_zero, mul_one,
      zpow_natCast]

theorem shortestFrom_toBinary64 {x : Binary64} (hx : x.isFinite = true) (num den : Nat)
    (point : Int) (fuel count : Nat) :
    (shortestFrom x num den point fuel count).toBinary64 x.isNegative = x := by
  induction fuel generalizing count with
  | zero => exact roundDecimal_self hx x.exactDecimal_value
  | succ fuel ih =>
    rw [shortestFrom]
    split
    next d hd =>
      have hfound := List.find?_some hd
      exact of_decide_eq_true hfound
    next => exact ih (count + 1)

/-- The shortest decimal of a finite real is rounded to that real. -/
theorem shortest_toBinary64 {x : Binary64} (hx : x.isFinite = true) :
    x.shortest.toBinary64 x.isNegative = x := by
  rw [shortest]
  split
  next hzero =>
    refine roundDecimal_self hx ?_
    rw [hzero, Nat.cast_zero, zero_mul, zero_mul]
  next => exact shortestFrom_toBinary64 hx _ _ _ _ _

end Binary64

end PropertyList
