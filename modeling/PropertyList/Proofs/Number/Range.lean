/-
  PropertyList.Proofs.Number.Range

  What rounding can yield.  It never yields what is no number, and it yields an
  infinity only from numbers that are at least half a unit of the last place above the
  largest real.
-/
import PropertyList.Proofs.Number.Decimal
import PropertyList.Proofs.Number.Nearest

namespace PropertyList

namespace Binary64

variable {num den : Nat} {negative : Bool}

/-! ## Fractions -/

theorem isNaN_ofMagnitude {magnitude : Nat} (h : magnitude ≤ infinityMagnitude) :
    (ofMagnitude negative magnitude).isNaN = false := by
  have hsign : magnitude < signUnit := Nat.lt_of_le_of_lt h (by decide)
  rw [isNaN, magnitude_ofMagnitude hsign]
  exact decide_eq_false (Nat.not_lt.mpr h)

theorem isNaN_roundRatio : (roundRatio negative num den).isNaN = false := by
  rw [roundRatio]
  split
  · exact isNaN_ofMagnitude (Nat.zero_le _)
  · exact isNaN_ofMagnitude (Nat.min_le_right _ _)

theorem isFinite_ofMagnitude {magnitude : Nat} (h : magnitude < infinityMagnitude) :
    (ofMagnitude negative magnitude).isFinite = true := by
  have hsign : magnitude < signUnit := Nat.lt_trans h (by decide)
  rw [isFinite, magnitude_ofMagnitude hsign]
  exact decide_eq_true h

/-- The numbers from here on are rounded to infinity: halfway between the largest real and the power
    of two above it. -/
def overflowBound : ℚ := 2 ^ (1024 : Int) - 2 ^ (970 : Int)

/-- What is below the bound is rounded to a finite real. -/
theorem isFinite_roundRatio (hden : den ≠ 0) (h : (num : ℚ) / den < overflowBound) :
    (roundRatio negative num den).isFinite = true := by
  by_cases hnum : num = 0
  · rw [roundRatio, if_pos hnum]
    exact isFinite_ofMagnitude (by decide)
  obtain ⟨k, hk⟩ : ∃ k, roundingExponent num den = k := ⟨_, rfl⟩
  obtain ⟨m, hround, herror, hm, -⟩ := exists_roundRatio_eq negative hnum hden hk
  have hpos : (0 : ℚ) < num / den := by positivity
  have hexponent : k ≤ 971 := by
    have hpower : (num : ℚ) / den < (2 : ℕ) ^ (1024 : Int) :=
      lt_of_lt_of_le h (sub_le_self _ (by positivity))
    have hlog := (Int.lt_zpow_iff_log_lt Nat.one_lt_two hpos).mp hpower
    rw [roundingExponent_eq hnum hden] at hk
    omega
  -- at the largest exponent the carry would be infinity, but the units stay below a half
  have hlast : k = 971 → m < 2 * exponentUnit := by
    rintro rfl
    have hunits : (num : ℚ) / den / 2 ^ (971 : Int) < 2 * exponentUnit - 1 / 2 := by
      have hpower : (2 : ℚ) ^ (1024 : Int) = 2 ^ (53 : Int) * 2 ^ (971 : Int) :=
        zpow_add₀ two_ne_zero 53 971
      have hhalf : (2 : ℚ) ^ (970 : Int) = 2 ^ (-1 : Int) * 2 ^ (971 : Int) :=
        zpow_add₀ two_ne_zero (-1) 971
      rw [div_lt_iff₀ (by positivity)]
      refine h.trans_eq ?_
      rw [overflowBound, hpower, hhalf, ← sub_mul, exponentUnit]
      norm_num
    rw [abs_le] at herror
    have hlt : (m : ℚ) < (2 * exponentUnit : Nat) := by
      push_cast
      linarith
    exact_mod_cast hlt
  have hmagnitude : (k + 1074).toNat * exponentUnit + m < infinityMagnitude := by
    have hj : (k + 1074).toNat ≤ 2044 ∨ (k + 1074).toNat = 2045 ∧ k = 971 := by omega
    simp only [exponentUnit, infinityMagnitude] at hm hlast ⊢
    omega
  rw [hround, Nat.min_eq_left hmagnitude.le]
  exact isFinite_ofMagnitude hmagnitude

end Binary64

/-! ## Decimals -/

namespace Decimal

variable {d : Decimal} {negative : Bool}

/-- The number that a decimal stands for. -/
def toRat (d : Decimal) : ℚ := d.digits * 10 ^ d.exponent

theorem isNaN_toBinary64 : (d.toBinary64 negative).isNaN = false := by
  obtain ⟨num, den, hden, hratio⟩ := Binary64.exists_ratio d.digits d.exponent
  rw [toBinary64, Binary64.roundDecimal_eq hden hratio]
  exact Binary64.isNaN_roundRatio

theorem isFinite_toBinary64 (h : d.toRat < Binary64.overflowBound) :
    (d.toBinary64 negative).isFinite = true := by
  obtain ⟨num, den, hden, hratio⟩ := Binary64.exists_ratio d.digits d.exponent
  rw [toBinary64, Binary64.roundDecimal_eq hden hratio]
  exact Binary64.isFinite_roundRatio hden (hratio.trans_lt h)

/-- The decimal of a numeral without sign. -/
def ofMagnitudeChars? (s : List Char) : Option Decimal := do
  let (whole, s) := Binary64.takeDigits s
  let (fraction, s) := Binary64.takeFraction s
  if whole.isEmpty && fraction.isEmpty then none else
  let e ← Binary64.takeExponent? s
  some ⟨Binary64.ofDigitChars (whole ++ fraction), e - fraction.length⟩

end Decimal

/-- A numeral is read as its decimal, rounded. -/
theorem Binary64.ofMagnitudeChars?_eq_map (negative : Bool) (s : List Char) :
    ofMagnitudeChars? negative s = (Decimal.ofMagnitudeChars? s).map (·.toBinary64 negative) := by
  rw [ofMagnitudeChars?, Decimal.ofMagnitudeChars?]
  generalize takeDigits s = first
  obtain ⟨whole, s⟩ := first
  dsimp only
  generalize takeFraction s = second
  obtain ⟨fraction, s⟩ := second
  dsimp only
  split
  · rfl
  · cases takeExponent? s <;> rfl

end PropertyList
