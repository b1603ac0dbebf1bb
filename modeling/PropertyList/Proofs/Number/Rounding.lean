/-
  PropertyList.Proofs.Number.Rounding

  What rounding does to a fraction depends only on the rational number that the
  fraction stands for, and a number that needs no rounding is not changed.
-/
import PropertyList.Number.Binary64
import Mathlib.Data.Int.Log
import Mathlib.Data.Rat.Floor
import Mathlib.Algebra.Order.Field.Power
import Mathlib.Tactic.FieldSimp
import Mathlib.Tactic.Linarith
import Mathlib.Tactic.NormNum
import Mathlib.Tactic.Positivity
import Mathlib.Tactic.Ring

namespace PropertyList

namespace Binary64

/-! ## Fields -/

theorem toNat_bits_ofMagnitude {negative : Bool} {magnitude : Nat} (h : magnitude < signUnit) :
    (ofMagnitude negative magnitude).bits.toNat = (if negative then signUnit else 0) + magnitude := by
  have hlt : (if negative then signUnit else 0) + magnitude < 2 ^ 64 := by
    simp only [signUnit] at h ⊢
    split <;> omega
  exact Nat.mod_eq_of_lt hlt

@[simp] theorem magnitude_ofMagnitude {negative : Bool} {magnitude : Nat}
    (h : magnitude < signUnit) : (ofMagnitude negative magnitude).magnitude = magnitude := by
  rw [Binary64.magnitude, toNat_bits_ofMagnitude h]
  cases negative with
  | false => simp [Nat.mod_eq_of_lt h]
  | true => simp [Nat.mod_eq_of_lt h]

@[simp] theorem isNegative_ofMagnitude {negative : Bool} {magnitude : Nat}
    (h : magnitude < signUnit) : (ofMagnitude negative magnitude).isNegative = negative := by
  rw [isNegative, toNat_bits_ofMagnitude h]
  cases negative with
  | false => simpa using h
  | true => simp

/-- A real is its sign and its magnitude. -/
theorem ofMagnitude_eta (x : Binary64) : ofMagnitude x.isNegative x.magnitude = x := by
  have hbits : (if x.isNegative then signUnit else 0) + x.magnitude = x.bits.toNat := by
    have hlt := x.bits.toNat_lt
    rw [isNegative, magnitude]
    by_cases h : signUnit ≤ x.bits.toNat
    · rw [if_pos (decide_eq_true h)]
      simp only [signUnit] at h ⊢
      omega
    · rw [decide_eq_false h, if_neg Bool.false_ne_true, Nat.zero_add]
      exact Nat.mod_eq_of_lt (not_le.mp h)
  rw [ofMagnitude, hbits, UInt64.ofNat_toNat]

/-- The magnitude of a real, from its significand and its exponent. -/
theorem magnitude_eq (x : Binary64) :
    x.magnitude = (x.exponent + 1074).toNat * exponentUnit + x.significand := by
  have hsplit := Nat.div_add_mod x.magnitude exponentUnit
  rw [exponent, significand]
  -- the smallest exponent stands for two fields: without the leading bit and with it
  by_cases h : x.exponentField = 0
  · rw [if_pos h, if_pos h]
    rw [exponentField] at h
    rw [h] at hsplit
    simpa [fraction] using hsplit.symm
  · obtain ⟨e, he⟩ := Nat.exists_eq_succ_of_ne_zero h
    have htoNat : ((x.exponentField : Int) - 1075 + 1074).toNat = e := by
      rw [he]
      omega
    rw [if_neg h, if_neg h, htoNat]
    rw [exponentField] at he
    rw [he, Nat.mul_succ, Nat.mul_comm] at hsplit
    rw [fraction]
    omega

theorem significand_lt (x : Binary64) : x.significand < 2 * exponentUnit := by
  have hfraction : x.fraction < exponentUnit := Nat.mod_lt _ (by decide)
  rw [significand]
  split <;> omega

/-- A significand has all its bits unless the exponent is the smallest. -/
theorem significand_normal (x : Binary64) :
    exponentUnit ≤ x.significand ∧ -1074 ≤ x.exponent ∨ x.exponent = -1074 := by
  rw [significand, exponent]
  split
  · exact .inr rfl
  · refine .inl ⟨Nat.le_add_left _ _, ?_⟩
    omega

section OfMagnitude

variable {j m : Nat}

/-- The fields of a real that is given by a significand with all its bits, and an exponent. -/
theorem fields_ofMagnitude (negative : Bool) (hj : j ≤ 2045) (hlow : exponentUnit ≤ m) (hhigh : m < 2 * exponentUnit) :
    (ofMagnitude negative (j * exponentUnit + m)).isNegative = negative ∧
    (ofMagnitude negative (j * exponentUnit + m)).isFinite = true ∧
    (ofMagnitude negative (j * exponentUnit + m)).significand = m ∧
    (ofMagnitude negative (j * exponentUnit + m)).exponent = (j : Int) - 1074 := by
  have hlt : j * exponentUnit + m < infinityMagnitude := by
    simp only [exponentUnit, infinityMagnitude] at hlow hhigh ⊢
    omega
  have hsign : j * exponentUnit + m < signUnit := Nat.lt_trans hlt (by decide)
  -- the leading bit of the significand adds one to the field of the exponent
  have hfield : (ofMagnitude negative (j * exponentUnit + m)).exponentField = j + 1 := by
    rw [exponentField, magnitude_ofMagnitude hsign]
    simp only [exponentUnit] at hlow hhigh ⊢
    omega
  have hfraction : (ofMagnitude negative (j * exponentUnit + m)).fraction = m - exponentUnit := by
    rw [fraction, magnitude_ofMagnitude hsign]
    simp only [exponentUnit] at hlow hhigh ⊢
    omega
  refine ⟨isNegative_ofMagnitude hsign, ?_, ?_, ?_⟩
  · rw [isFinite, magnitude_ofMagnitude hsign]
    exact decide_eq_true hlt
  · rw [significand, hfield, if_neg (Nat.succ_ne_zero j), hfraction, Nat.sub_add_cancel hlow]
  · rw [exponent, hfield, if_neg (Nat.succ_ne_zero j)]
    omega

end OfMagnitude

variable {num den num' den' : Nat} {k : Int}

/-! ## Scaling -/

theorem scaled_den_pos (num : Nat) (k : Int) (h : 0 < den) : 0 < (scaled num den k).2 := by
  unfold scaled
  split
  · exact h
  · rw [Nat.shiftLeft_eq]
    positivity

/-- Scaling divides by a power of two. -/
theorem scaled_ratio (num den : Nat) (k : Int) :
    ((scaled num den k).1 : ℚ) / (scaled num den k).2 = (num : ℚ) / den / 2 ^ k := by
  unfold scaled
  split
  next hk =>
    have hpow : ((2 ^ k.natAbs : Nat) : ℚ) = (2 ^ k)⁻¹ := by
      rw [Nat.cast_pow, Nat.cast_ofNat, ← zpow_natCast, Int.ofNat_natAbs_of_nonpos hk.le, zpow_neg]
    rw [Nat.shiftLeft_eq, Nat.cast_mul, hpow]
    ring
  next hk =>
    have hpow : ((2 ^ k.natAbs : Nat) : ℚ) = 2 ^ k := by
      rw [Nat.cast_pow, Nat.cast_ofNat, ← zpow_natCast, Int.natAbs_of_nonneg (not_lt.mp hk)]
    rw [Nat.shiftLeft_eq, Nat.cast_mul, hpow, div_mul_eq_div_div]

/-! ## The exponent -/

theorem log2_bounds (h : num ≠ 0) :
    (2 : ℚ) ^ (num.log2 : Int) ≤ num ∧ (num : ℚ) < 2 ^ ((num.log2 : Int) + 1) := by
  have hlow : 2 ^ num.log2 ≤ num := Nat.log2_self_le h
  have hhigh : num < 2 ^ (num.log2 + 1) := Nat.lt_log2_self
  constructor
  · rw [zpow_natCast]
    exact_mod_cast hlow
  · rw [← Nat.cast_succ, zpow_natCast]
    exact_mod_cast hhigh

/-- An exponent between two powers of two is a binary logarithm. -/
theorem log_eq_of_bounds {q : ℚ} (hlow : 2 ^ k ≤ q) (hhigh : q < 2 ^ (k + 1)) : Int.log 2 q = k := by
  have hq : 0 < q := lt_of_lt_of_le (by positivity) hlow
  have hle : k ≤ Int.log 2 q := (Int.zpow_le_iff_le_log Nat.one_lt_two hq).mp hlow
  have hlt : Int.log 2 q < k + 1 := (Int.lt_zpow_iff_log_lt Nat.one_lt_two hq).mp hhigh
  omega

/-- The logarithms of two numbers tell that of their ratio up to one. -/
theorem ratio_bounds (hnum : num ≠ 0) (hden : den ≠ 0) :
    (2 : ℚ) ^ ((num.log2 : Int) - den.log2 - 1) < num / den ∧
      (num : ℚ) / den < 2 ^ ((num.log2 : Int) - den.log2 + 1) := by
  have hden' : (0 : ℚ) < den := by positivity
  obtain ⟨hnlow, hnhigh⟩ := log2_bounds hnum
  obtain ⟨hdlow, hdhigh⟩ := log2_bounds hden
  rw [lt_div_iff₀ hden', div_lt_iff₀ hden']
  -- the power for the logarithm of the denominator cancels
  constructor
  · calc (2 : ℚ) ^ ((num.log2 : Int) - den.log2 - 1) * den
      _ < 2 ^ ((num.log2 : Int) - den.log2 - 1) * 2 ^ ((den.log2 : Int) + 1) := by gcongr
      _ = 2 ^ (num.log2 : Int) := by
        rw [← zpow_add₀ two_ne_zero]
        ring_nf
      _ ≤ num := hnlow
  · calc (num : ℚ)
      _ < 2 ^ ((num.log2 : Int) + 1) := hnhigh
      _ = 2 ^ ((num.log2 : Int) - den.log2 + 1) * 2 ^ (den.log2 : Int) := by
        rw [← zpow_add₀ two_ne_zero]
        ring_nf
      _ ≤ 2 ^ ((num.log2 : Int) - den.log2 + 1) * den := by gcongr

/-- The exponent for rounding leaves 53 bits in front of the point, but it is at least that of the
    smallest numbers. -/
theorem roundingExponent_eq (hnum : num ≠ 0) (hden : den ≠ 0) :
    roundingExponent num den = max (Int.log 2 ((num : ℚ) / den) - 52) (-1074) := by
  obtain ⟨hlow, hhigh⟩ := ratio_bounds hnum hden
  -- the whole part at the estimated exponent decides which of two exponents it is
  have hratio := scaled_ratio num den ((num.log2 : Int) - den.log2 - 53)
  have hpos := scaled_den_pos num ((num.log2 : Int) - den.log2 - 53) (Nat.pos_of_ne_zero hden)
  unfold roundingExponent
  generalize hk : (num.log2 : Int) - den.log2 - 53 = k at hratio hpos
  have hscale : ∀ m : Nat, (scaled num den k).1 / (scaled num den k).2 < m ↔
      (num : ℚ) / den < m * 2 ^ k := by
    intro m
    have hpos' : (0 : ℚ) < (scaled num den k).2 := by exact_mod_cast hpos
    rw [Nat.div_lt_iff_lt_mul hpos, ← div_lt_iff₀ (by positivity), ← hratio, div_lt_iff₀ hpos']
    norm_cast
  have hunit : ((2 * exponentUnit : Nat) : ℚ) * 2 ^ k = 2 ^ (k + 53) := by
    rw [zpow_add₀ two_ne_zero]
    norm_num [exponentUnit]
    ring
  simp only [hscale, hunit]
  congr 1
  split
  next h =>
    rw [log_eq_of_bounds (k := k + 52) ?_ (by rwa [add_assoc])]
    · omega
    · rw [show k + 52 = (num.log2 : Int) - den.log2 - 1 by omega]
      exact hlow.le
  next h =>
    rw [log_eq_of_bounds (k := k + 53) (not_lt.mp h) ?_]
    · omega
    · rwa [show k + 53 + 1 = (num.log2 : Int) - den.log2 + 1 by omega]

/-! ## Rounding -/

theorem ratio_eq_iff (hden : den ≠ 0) (hden' : den' ≠ 0) :
    (num : ℚ) / den = (num' : ℚ) / den' ↔ num * den' = num' * den := by
  rw [div_eq_div_iff (by exact_mod_cast hden) (by exact_mod_cast hden')]
  norm_cast

theorem roundHalfEven_congr (hden : den ≠ 0) (hden' : den' ≠ 0)
    (h : (num : ℚ) / den = (num' : ℚ) / den') :
    roundHalfEven num den = roundHalfEven num' den' := by
  have hcross := (ratio_eq_iff hden hden').mp h
  have hdiv : num / den = num' / den' := by
    rw [← Nat.mul_div_mul_right num den (Nat.pos_of_ne_zero hden'), hcross, Nat.mul_comm den,
      Nat.mul_div_mul_right num' den' (Nat.pos_of_ne_zero hden)]
  have hmod : num % den * den' = num' % den' * den := by
    have h₁ := Nat.div_add_mod num den
    have h₂ := Nat.div_add_mod num' den'
    rw [← h₁, ← h₂, hdiv] at hcross
    rw [Nat.add_mul, Nat.add_mul] at hcross
    have hswap : den * (num' / den') * den' = den' * (num' / den') * den := by ring
    omega
  -- both comparisons with a half are the same when multiplied by the denominators
  have hpos := Nat.pos_of_ne_zero hden
  have hpos' := Nat.pos_of_ne_zero hden'
  have hless : 2 * (num % den) < den ↔ 2 * (num' % den') < den' := by
    calc 2 * (num % den) < den
      _ ↔ 2 * (num % den) * den' < den * den' := (Nat.mul_lt_mul_right hpos').symm
      _ ↔ 2 * (num' % den') * den < den' * den := by
        rw [Nat.mul_assoc, hmod, ← Nat.mul_assoc, Nat.mul_comm den]
      _ ↔ 2 * (num' % den') < den' := Nat.mul_lt_mul_right hpos
  have hmore : den < 2 * (num % den) ↔ den' < 2 * (num' % den') := by
    calc den < 2 * (num % den)
      _ ↔ den * den' < 2 * (num % den) * den' := (Nat.mul_lt_mul_right hpos').symm
      _ ↔ den' * den < 2 * (num' % den') * den := by
        rw [Nat.mul_assoc 2, hmod, ← Nat.mul_assoc 2, Nat.mul_comm den]
      _ ↔ den' < 2 * (num' % den') := Nat.mul_lt_mul_right hpos
  unfold roundHalfEven
  simp only [hless, hmore, hdiv]

theorem roundHalfEven_self_mul (n : Nat) (h : 0 < den) : roundHalfEven (n * den) den = n := by
  unfold roundHalfEven
  rw [Nat.mul_div_cancel n h, Nat.mul_mod_left]
  simp [h]

/-- Rounding depends only on the number that is rounded. -/
theorem roundRatio_congr (negative : Bool) (hden : den ≠ 0) (hden' : den' ≠ 0)
    (h : (num : ℚ) / den = (num' : ℚ) / den') :
    roundRatio negative num den = roundRatio negative num' den' := by
  -- zero is rounded on its own
  have hzero : num = 0 ↔ num' = 0 := by
    have hcross := (ratio_eq_iff hden hden').mp h
    constructor
    · rintro rfl
      have h0 : num' * den = 0 := by rw [← hcross, Nat.zero_mul]
      exact (Nat.mul_eq_zero.mp h0).resolve_right hden
    · rintro rfl
      have h0 : num * den' = 0 := by rw [hcross, Nat.zero_mul]
      exact (Nat.mul_eq_zero.mp h0).resolve_right hden'
  unfold roundRatio
  by_cases hnum : num = 0
  · rw [if_pos hnum, if_pos (hzero.mp hnum)]
  · have hnum' : num' ≠ 0 := fun h0 => hnum (hzero.mpr h0)
    have hexp : roundingExponent num den = roundingExponent num' den' := by
      rw [roundingExponent_eq hnum hden, roundingExponent_eq hnum' hden', h]
    have hround : ∀ k, roundHalfEven (scaled num den k).1 (scaled num den k).2 =
        roundHalfEven (scaled num' den' k).1 (scaled num' den' k).2 := by
      intro k
      apply roundHalfEven_congr
      · exact (scaled_den_pos num _ (Nat.pos_of_ne_zero hden)).ne'
      · exact (scaled_den_pos num' _ (Nat.pos_of_ne_zero hden')).ne'
      · rw [scaled_ratio, scaled_ratio, h]
    rw [if_neg hnum, if_neg hnum', hexp]
    simp only [hround]

/-- Numbers of 53 bits, and all smaller ones at the smallest exponent, are rounded at the exponent
    they are given with. -/
theorem roundingExponent_of_eq {m : Nat} (hnum : num ≠ 0) (hden : den ≠ 0)
    (h : (num : ℚ) / den = m * 2 ^ k) (hm : m < 2 * exponentUnit)
    (hk : exponentUnit ≤ m ∧ -1074 ≤ k ∨ k = -1074) : roundingExponent num den = k := by
  have hpos : (0 : ℚ) < m * 2 ^ k := by
    rw [← h]
    positivity
  have hupper : (m : ℚ) * 2 ^ k < 2 ^ (k + 53) := by
    rw [zpow_add₀ two_ne_zero, mul_comm]
    gcongr
    exact_mod_cast hm
  have hlog : Int.log 2 ((m : ℚ) * 2 ^ k) < k + 53 :=
    (Int.lt_zpow_iff_log_lt Nat.one_lt_two hpos).mp hupper
  rw [roundingExponent_eq hnum hden, h]
  rcases hk with ⟨hge, hk⟩ | hk
  · have hlower : (2 : ℚ) ^ (k + 52) ≤ m * 2 ^ k := by
      rw [zpow_add₀ two_ne_zero, mul_comm]
      gcongr
      exact_mod_cast hge
    have hlog' : k + 52 ≤ Int.log 2 ((m : ℚ) * 2 ^ k) :=
      (Int.zpow_le_iff_le_log Nat.one_lt_two hpos).mp hlower
    omega
  · omega

/-- A whole number of units that has at most 53 bits, and all 53 of them unless it is at the
    smallest exponent, is not rounded. -/
theorem roundRatio_of_eq {m : Nat} (negative : Bool) (hden : den ≠ 0)
    (h : (num : ℚ) / den = m * 2 ^ k) (hm : m < 2 * exponentUnit)
    (hk : exponentUnit ≤ m ∧ -1074 ≤ k ∨ k = -1074) :
    roundRatio negative num den =
      ofMagnitude negative (min ((k + 1074).toNat * exponentUnit + m) infinityMagnitude) := by
  by_cases hnum : num = 0
  · subst hnum
    have hm0 : m = 0 := by
      rw [Nat.cast_zero, zero_div, eq_comm, mul_eq_zero] at h
      exact_mod_cast h.resolve_right (zpow_ne_zero k two_ne_zero)
    have hk0 : k = -1074 := by
      rcases hk with ⟨hge, -⟩ | hk
      · rw [hm0] at hge
        exact absurd hge (by decide)
      · exact hk
    rw [roundRatio, if_pos rfl, hm0, hk0]
    rfl
  have hexp := roundingExponent_of_eq hnum hden h hm hk
  -- at this exponent the number is whole, and nothing is left to round
  have hround : roundHalfEven (scaled num den k).1 (scaled num den k).2 = m := by
    have hratio : ((scaled num den k).1 : ℚ) / (scaled num den k).2 = (m * 1 : Nat) / (1 : Nat) := by
      rw [scaled_ratio, h, Nat.mul_one, Nat.cast_one, div_one, mul_div_assoc,
        div_self (zpow_ne_zero k two_ne_zero), mul_one]
    rw [roundHalfEven_congr (scaled_den_pos num k (Nat.pos_of_ne_zero hden)).ne' one_ne_zero hratio,
      roundHalfEven_self_mul m one_pos]
  rw [roundRatio, if_neg hnum, hexp]
  simp only [hround]

/-- Rounding the exact value of a finite real gives that real. -/
theorem roundRatio_self {x : Binary64} (hx : x.isFinite = true) (hden : den ≠ 0)
    (h : (num : ℚ) / den = x.significand * 2 ^ x.exponent) :
    roundRatio x.isNegative num den = x := by
  rw [isFinite, decide_eq_true_eq] at hx
  rw [roundRatio_of_eq x.isNegative hden h x.significand_lt x.significand_normal,
    ← magnitude_eq, Nat.min_eq_left hx.le, ofMagnitude_eta]

/-- A whole number of at most 53 bits has a significand that is a multiple of it. -/
theorem exists_shift {n : Nat} (h : n ≠ 0) (hlt : n < 2 * exponentUnit) :
    ∃ s, s ≤ 52 ∧ exponentUnit ≤ n * 2 ^ s ∧ n * 2 ^ s < 2 * exponentUnit := by
  have hlow : 2 ^ n.log2 ≤ n := Nat.log2_self_le h
  have hhigh : n < 2 ^ (n.log2 + 1) := Nat.lt_log2_self
  have hlog : n.log2 < 53 := (Nat.log2_lt h).mpr hlt
  refine ⟨52 - n.log2, Nat.sub_le _ _, ?_, ?_⟩
  · calc exponentUnit
      _ = 2 ^ n.log2 * 2 ^ (52 - n.log2) := by
        rw [← Nat.pow_add, Nat.add_sub_cancel' (Nat.le_of_lt_succ hlog)]
        rfl
      _ ≤ n * 2 ^ (52 - n.log2) := Nat.mul_le_mul_right _ hlow
  · calc n * 2 ^ (52 - n.log2)
      _ < 2 ^ (n.log2 + 1) * 2 ^ (52 - n.log2) := Nat.mul_lt_mul_of_pos_right hhigh (by positivity)
      _ = 2 * exponentUnit := by
        rw [← Nat.pow_add, show n.log2 + 1 + (52 - n.log2) = 53 by omega]
        rfl

/-- A whole number of at most 53 bits is represented without loss. -/
theorem roundRatio_whole {n : Nat} (negative : Bool) (hden : den ≠ 0) (hn : n ≠ 0)
    (hlt : n < 2 * exponentUnit) (h : num = n * den) :
    ∃ s : Nat, (roundRatio negative num den).isNegative = negative ∧
      (roundRatio negative num den).isFinite = true ∧
      (roundRatio negative num den).significand = n * 2 ^ s ∧
      (roundRatio negative num den).exponent = -(s : Int) := by
  obtain ⟨s, hs, hlow, hhigh⟩ := exists_shift hn hlt
  -- the significand is shifted up to 53 bits
  have hvalue : (num : ℚ) / den = (n * 2 ^ s : Nat) * 2 ^ (-(s : Int)) := by
    have hden' : (den : ℚ) ≠ 0 := by exact_mod_cast hden
    rw [h, Nat.cast_mul, mul_div_assoc, div_self hden', mul_one, Nat.cast_mul, Nat.cast_pow,
      Nat.cast_ofNat, mul_assoc, ← zpow_natCast, ← zpow_add₀ two_ne_zero, add_neg_cancel, zpow_zero,
      mul_one]
  have hround := roundRatio_of_eq negative hden hvalue hhigh (.inl ⟨hlow, by omega⟩)
  have hmin : (-(s : Int) + 1074).toNat * exponentUnit + n * 2 ^ s ≤ infinityMagnitude := by
    have hj : (-(s : Int) + 1074).toNat ≤ 1074 := by omega
    simp only [exponentUnit, infinityMagnitude] at hhigh ⊢
    omega
  rw [Nat.min_eq_left hmin] at hround
  obtain ⟨hneg, hfin, hsig, hexp⟩ := fields_ofMagnitude negative
    (show (-(s : Int) + 1074).toNat ≤ 2045 by omega) hlow hhigh
  rw [← hround] at hneg hfin hsig hexp
  refine ⟨s, hneg, hfin, hsig, ?_⟩
  omega

end Binary64

end PropertyList
