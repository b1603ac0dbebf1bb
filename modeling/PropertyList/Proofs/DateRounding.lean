/-
  PropertyList.Proofs.DateRounding

  Dates and real numbers of seconds.  Up to `2 ^ 33` seconds away from 2001, reals lie so
  close together that all microseconds are told apart; further away, they lie so far
  apart that each of them is found again from the microseconds nearest to it.  So a
  date that was read from a real comes back from its own real.
-/
import PropertyList.Proofs.DateTime
import PropertyList.Proofs.Number.Nearest

namespace PropertyList

namespace DateTime

open Binary64

variable {t : DateTime} {x : Binary64} {n : Int}

/-! ## Whole numbers of microseconds -/

theorem shiftLeft_natAbs_of_nonneg {e : Int} (he : 0 ≤ e) (m : Int) :
    ((m <<< e.natAbs : Int) : ℚ) = m * 2 ^ e := by
  rw [Int.shiftLeft_eq]
  push_cast
  rw [← zpow_natCast, Int.natAbs_of_nonneg he]

theorem one_shiftLeft_natAbs_of_neg {e : Int} (he : e < 0) :
    (((1 : Int) <<< e.natAbs : Int) : ℚ) = (2 ^ e)⁻¹ := by
  rw [Int.shiftLeft_eq, one_mul]
  push_cast
  rw [← zpow_natCast, Int.ofNat_natAbs_of_nonpos he.le, zpow_neg]

/-- Rounding to an integer errs by half at most. -/
theorem abs_sub_roundToInt_le (m e : Int) : |(m : ℚ) * 2 ^ e - roundToInt m e| ≤ 1 / 2 := by
  rw [roundToInt]
  by_cases he : 0 ≤ e
  · rw [if_pos he, shiftLeft_natAbs_of_nonneg he, sub_self, abs_zero]
    norm_num
  rw [if_neg he]
  have hcast := one_shiftLeft_natAbs_of_neg (not_le.mp he)
  have hpos : (0 : Int) < (1 : Int) <<< e.natAbs := by
    rw [Int.shiftLeft_eq, one_mul]
    positivity
  -- from here on the power of two is some positive divisor
  dsimp only
  generalize (1 : Int) <<< e.natAbs = d at hcast hpos ⊢
  have hpos' : (0 : ℚ) < d := by exact_mod_cast hpos
  have hsplit : (m : ℚ) * 2 ^ e = (m / d : Int) + ((m % d : Int) : ℚ) / d := by
    rw [← inv_inv ((2 : ℚ) ^ e), ← hcast, ← div_eq_mul_inv, div_eq_iff hpos'.ne', add_mul,
      div_mul_cancel₀ _ hpos'.ne', mul_comm]
    exact_mod_cast (Int.mul_ediv_add_emod m d).symm
  have hround : ((if 2 * (m % d) < d then m / d else if d < 2 * (m % d) then m / d + 1
      else m / d + m / d % 2 : Int) : ℚ) = (m / d : Int) +
        if 2 * (m % d) < d then 0 else if d < 2 * (m % d) then 1 else ((m / d % 2 : Int) : ℚ) := by
    split_ifs <;> push_cast <;> ring
  rw [hsplit, hround, add_sub_add_left_eq_sub]
  have hnonneg := Int.emod_nonneg m hpos.ne'
  apply abs_sub_nearest_le
  · apply div_nonneg
    · exact_mod_cast hnonneg
    · exact hpos'.le
  · rw [div_lt_one hpos']
    exact_mod_cast Int.emod_lt_of_pos m hpos
  · rw [div_lt_div_iff₀ hpos' two_pos, mul_comm, one_mul]
    exact_mod_cast Iff.rfl
  · rw [div_lt_div_iff₀ two_pos hpos', mul_comm _ (2 : ℚ), one_mul]
    exact_mod_cast Iff.rfl
  -- a tie goes to the even neighbour, which is one of the two
  · rcases Int.emod_two_eq_zero_or_one (m / d) with h | h
    · exact .inl (by rw [h, Int.cast_zero])
    · exact .inr (by rw [h, Int.cast_one])

/-- Scaled to microseconds, the part of a second is rounded twice, which hardly adds to the error. -/
theorem abs_sub_microsecondsOfSeconds_le (x : Binary64) :
    |x.toRat * 1000000 - microsecondsOfSeconds x| ≤ 1 / 2 + 1 / 2 ^ 34 := by
  rw [microsecondsOfSeconds, toRat]
  generalize x.signedSignificand = m
  generalize x.exponent = e
  dsimp only
  by_cases he : 0 ≤ e
  · rw [if_pos he, Int.cast_mul, shiftLeft_natAbs_of_nonneg he]
    norm_num
  rw [if_neg he]
  have hneg := not_le.mp he
  have hcast := one_shiftLeft_natAbs_of_neg hneg
  have hpos : (0 : Int) < (1 : Int) <<< e.natAbs := by
    rw [Int.shiftLeft_eq, one_mul]
    positivity
  generalize (1 : Int) <<< e.natAbs = d at hcast hpos ⊢
  have hpow : (0 : ℚ) < 2 ^ e := by positivity
  have hd : (d : ℚ) * 2 ^ e = 1 := by rw [hcast, inv_mul_cancel₀ hpow.ne']
  have hsplit : (m : ℚ) * 2 ^ e = m.tdiv d + m.tmod d * 2 ^ e := by
    have hdiv : (m : ℚ) = d * m.tdiv d + m.tmod d := by exact_mod_cast (Int.mul_tdiv_add_tmod m d).symm
    calc (m : ℚ) * 2 ^ e
      _ = m.tdiv d * (d * 2 ^ e) + m.tmod d * 2 ^ e := by
        rw [hdiv]
        ring
      _ = m.tdiv d + m.tmod d * 2 ^ e := by rw [hd, mul_one]
  -- the part is less than a million microseconds
  have hpart : |((m.tmod d * 1000000 : Int) : ℚ) * 2 ^ e| < 2 ^ (20 : Int) := by
    have hlt : |(m.tmod d : ℚ)| < d := by
      have habs : |m.tmod d| < d := abs_lt.mpr ⟨Int.lt_tmod_of_pos m hpos, Int.tmod_lt_of_pos m hpos⟩
      exact_mod_cast habs
    calc |((m.tmod d * 1000000 : Int) : ℚ) * 2 ^ e|
      _ = |(m.tmod d : ℚ)| * 2 ^ e * 1000000 := by
        push_cast
        rw [abs_mul, abs_mul, abs_of_pos hpow]
        norm_num
        ring
      _ ≤ d * 2 ^ e * 1000000 := by gcongr
      _ < 2 ^ (20 : Int) := by
        rw [hd]
        norm_num
  have hrounded := abs_toRat_roundDyadic_sub_le hneg (by decide) (by decide) hpart
  have hwhole := abs_sub_roundToInt_le (roundDyadic (m.tmod d * 1000000) e).signedSignificand
    (roundDyadic (m.tmod d * 1000000) e).exponent
  rw [← toRat] at hwhole
  rw [hsplit]
  push_cast at hrounded ⊢
  rw [abs_le] at hrounded hwhole ⊢
  norm_num at hrounded ⊢
  constructor <;> linarith

/-- A real that is nearly a number of microseconds gives that number. -/
theorem microsecondsOfSeconds_eq (h : |x.toRat * 1000000 - n| < 1 / 2 - 1 / 2 ^ 34) :
    microsecondsOfSeconds x = n := by
  have herror := abs_sub_microsecondsOfSeconds_le x
  rw [abs_le] at herror
  rw [abs_lt] at h
  have hlow : (microsecondsOfSeconds x : ℚ) < n + 1 := by linarith
  have hhigh : (n : ℚ) < microsecondsOfSeconds x + 1 := by linarith
  have hlow' : microsecondsOfSeconds x < n + 1 := by exact_mod_cast hlow
  have hhigh' : n < microsecondsOfSeconds x + 1 := by exact_mod_cast hhigh
  omega

/-! ## There and back -/

/-- A whole number of seconds loses nothing. -/
theorem microsecondsOfSeconds_of_eq {z : Int} (h : x.toRat = z) :
    microsecondsOfSeconds x = z * 1000000 := by
  apply microsecondsOfSeconds_eq
  rw [h]
  push_cast
  rw [sub_self, abs_zero]
  norm_num

/-- The microseconds of a real of at least a second have its sign, and nearly its size. -/
theorem natAbs_microsecondsOfSeconds (hx : 1 ≤ |x.toRat|) (hn : microsecondsOfSeconds x = n) :
    decide (n < 0) = x.isNegative ∧
      |(n.natAbs : ℚ) - x.significand * 2 ^ x.exponent * 1000000| ≤ 1 / 2 + 1 / 2 ^ 34 := by
  have herror := abs_sub_microsecondsOfSeconds_le x
  have hpos : (0 : ℚ) ≤ x.significand * 2 ^ x.exponent := by positivity
  rw [hn] at herror
  rw [toRat_eq] at hx herror
  generalize (x.significand : ℚ) * 2 ^ x.exponent = a at hx herror hpos ⊢
  generalize x.isNegative = negative at hx herror ⊢
  rw [abs_mul, abs_signFactor, one_mul, abs_of_nonneg hpos] at hx
  rw [Nat.cast_natAbs, Int.cast_abs]
  -- the error is less than a second, so the count keeps the sign
  cases negative with
  | false =>
    rw [signFactor, if_neg Bool.false_ne_true, one_mul] at herror
    norm_num [abs_le] at herror
    have hn' : (0 : ℚ) < n := by linarith
    have hnonneg : ¬ n < 0 := not_lt.mpr (by exact_mod_cast hn'.le)
    rw [abs_of_pos hn']
    refine ⟨decide_eq_false hnonneg, ?_⟩
    norm_num [abs_le]
    constructor <;> linarith
  | true =>
    rw [signFactor, if_pos rfl] at herror
    norm_num [abs_le] at herror
    have hn' : (n : ℚ) < 0 := by linarith
    rw [abs_of_neg hn']
    refine ⟨decide_eq_true (by exact_mod_cast hn'), ?_⟩
    norm_num [abs_le]
    constructor <;> linarith

/-- Near to 2001, rounding to a real moves a date by less than half a microsecond. -/
theorem microsecondsOfSeconds_of_near (h : n.natAbs < 2 ^ 33 * 1000000) :
    (roundRatio (n < 0) n.natAbs 1000000).isFinite = true ∧
      microsecondsOfSeconds (roundRatio (n < 0) n.natAbs 1000000) = n := by
  have hbound : (n.natAbs : ℚ) / (1000000 : Nat) < 2 ^ (33 : Int) := by
    rw [div_lt_iff₀ (by norm_num)]
    exact_mod_cast h
  obtain ⟨hfinite, herror⟩ :=
    abs_toRat_roundRatio_sub_le (n < 0) (by decide) (by decide) (by decide) hbound
  refine ⟨hfinite, microsecondsOfSeconds_eq ?_⟩
  have hvalue : signFactor (n < 0) * ((n.natAbs : ℚ) / (1000000 : Nat)) = n / 1000000 := by
    rw [← mul_div_assoc, signFactor_mul_natAbs, Nat.cast_ofNat]
  rw [hvalue] at herror
  generalize (roundRatio (n < 0) n.natAbs 1000000).toRat = q at herror ⊢
  norm_num [abs_le, abs_lt] at herror ⊢
  constructor <;> linarith

/-- Far from 2001, a real that is no whole number of seconds is found again from its microseconds. -/
theorem roundRatio_microsecondsOfSeconds_of_far (hx : x.isFinite = true)
    (hn : microsecondsOfSeconds x = n) (hfar : 2 ^ 33 ≤ |x.toRat|) (hwhole : n % 1000000 ≠ 0) :
    roundRatio (n < 0) n.natAbs 1000000 = x := by
  have hpow : (0 : ℚ) < 2 ^ x.exponent := by positivity
  have hexponent : -19 ≤ x.exponent := by
    have hsig : (x.significand : ℚ) < 2 ^ 53 := by exact_mod_cast x.significand_lt
    rw [toRat_eq, abs_mul, abs_signFactor, one_mul, abs_of_nonneg (by positivity)] at hfar
    have hlt : (2 : ℚ) ^ (-20 : Int) < 2 ^ x.exponent := by
      have hless : (2 : ℚ) ^ 33 < 2 ^ 53 * 2 ^ x.exponent := lt_of_le_of_lt hfar (by gcongr)
      norm_num at hless ⊢
      linarith
    have hexp := (zpow_lt_zpow_iff_right₀ one_lt_two).mp hlt
    omega
  -- the smallest significand would make it a power of two
  have hsig : exponentUnit < x.significand := by
    rcases x.significand_normal with ⟨hge, -⟩ | hmin
    · refine lt_of_le_of_ne hge fun heq => hwhole ?_
      have hpower : x.toRat = (if x.isNegative then -1 else 1) * 2 ^ (52 + x.exponent).toNat := by
        have hunit : ((exponentUnit : Nat) : ℚ) = 2 ^ (52 : Int) := by norm_num [exponentUnit]
        rw [toRat_eq, ← heq, hunit, ← zpow_add₀ two_ne_zero, ← zpow_natCast,
          Int.toNat_of_nonneg (by omega)]
        rfl
      have hinteger : x.toRat =
          ((if x.isNegative then -1 else 1) * 2 ^ (52 + x.exponent).toNat : Int) := by
        rw [hpower]
        push_cast
        rfl
      rw [← hn, microsecondsOfSeconds_of_eq hinteger]
      exact Int.mul_emod_left _ _
    · omega
  obtain ⟨hsign, hsize⟩ := natAbs_microsecondsOfSeconds (le_trans (by norm_num) hfar) hn
  rw [hsign]
  apply roundRatio_eq_of_abs_lt hx (by decide) hsig
  -- half a microsecond is less than half a unit of the last place
  have hunit : (2 : ℚ) ^ (-19 : Int) ≤ 2 ^ x.exponent := zpow_le_zpow_right₀ one_le_two hexponent
  rw [div_sub' hpow.ne', abs_div, abs_of_pos hpow, div_lt_iff₀ hpow]
  generalize (n.natAbs : ℚ) = size at hsize ⊢
  norm_num [abs_le, abs_lt] at hsize hunit ⊢
  constructor <;> linarith

/-- A date that was read from a real comes back from the real that it is written as. -/
theorem ofSeconds?_of_ofSeconds? (h : ofSeconds? x = some t) :
    ofSeconds? t.secondsSinceEpoch = some t := by
  rw [ofSeconds?] at h
  split at h
  case isFalse => cases h
  case isTrue hx =>
  obtain ⟨hn, hvalid⟩ := sinceEpoch_of_ofSinceEpoch? h
  by_cases hmicro : t.microsecond = 0
  · exact ofSeconds?_secondsSinceEpoch hvalid hmicro
  have hwhole : t.sinceEpoch % 1000000 ≠ 0 := by
    have hlt := hvalid.2.2.2.2.2.2.2.2.2
    have hepoch : epoch.microseconds = 63113904000000000 := by decide
    rw [sinceEpoch, hepoch, microseconds]
    omega
  have hback : t.secondsSinceEpoch.isFinite = true ∧
      microsecondsOfSeconds t.secondsSinceEpoch = t.sinceEpoch := by
    rw [secondsSinceEpoch]
    by_cases hfar : 2 ^ 33 ≤ |x.toRat|
    · rw [roundRatio_microsecondsOfSeconds_of_far hx hn.symm hfar hwhole]
      exact ⟨hx, hn.symm⟩
    · apply microsecondsOfSeconds_of_near
      have herror := abs_sub_microsecondsOfSeconds_le x
      have hnear : (t.sinceEpoch.natAbs : ℚ) < 2 ^ 33 * 1000000 + 1 := by
        have hdistance := abs_sub_abs_le_abs_sub (t.sinceEpoch : ℚ) (x.toRat * 1000000)
        rw [hn, abs_sub_comm, abs_mul, abs_of_pos (by norm_num : (0 : ℚ) < 1000000)] at hdistance
        rw [Nat.cast_natAbs, Int.cast_abs, hn]
        have hlt := not_le.mp hfar
        norm_num at herror ⊢
        linarith
      -- the bound itself is a whole number of seconds
      have hle : t.sinceEpoch.natAbs < 2 ^ 33 * 1000000 + 1 := by exact_mod_cast hnear
      omega
  rw [ofSeconds?, if_pos hback.1, hback.2, ofSinceEpoch?_sinceEpoch hvalid]

end DateTime

end PropertyList
