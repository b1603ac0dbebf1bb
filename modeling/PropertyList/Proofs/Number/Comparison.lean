/-
  PropertyList.Proofs.Number.Comparison

  Which reals are equal as numbers: a real and itself, unless it is no number, and the
  two zeros.  A finite real has only one significand and exponent, since a significand
  has all its bits wherever the exponent could be smaller.
-/
import PropertyList.Proofs.Number.Rounding

namespace PropertyList.Binary64

variable {x y : Binary64}

theorem le_exponent (x : Binary64) : -1074 ≤ x.exponent := by
  rw [exponent]
  split <;> omega

theorem natAbs_signedSignificand (x : Binary64) : x.signedSignificand.natAbs = x.significand := by
  rw [signedSignificand]
  split <;> omega

theorem magnitude_of_significand (h : x.significand = 0) : x.magnitude = 0 := by
  have hexponent : x.exponent = -1074 := by
    refine x.significand_normal.resolve_left fun hnormal => ?_
    rw [h] at hnormal
    exact absurd hnormal.1 (by decide)
  rw [magnitude_eq, hexponent, h]
  rfl

/-- A significand cannot be shifted to the left, for a larger exponent it has all its bits. -/
theorem eq_zero_of_shifted {d : Nat} (hexponent : y.exponent = x.exponent + d)
    (hsignificand : x.significand = y.significand * 2 ^ d) : d = 0 := by
  by_contra hd
  have hlow := x.le_exponent
  have hupper := x.significand_lt
  have hnormal := y.significand_normal.resolve_right (by omega)
  have hdouble : y.significand * 2 ≤ y.significand * 2 ^ d :=
    Nat.mul_le_mul_left _ (Nat.le_self_pow hd 2)
  omega

/-- Finite reals with the same number have the same exponent. -/
theorem exponent_eq_of_scaled {a b : Nat} (hab : a = 0 ∨ b = 0)
    (hexponent : x.exponent + b = y.exponent + a)
    (hscaled : x.significand * 2 ^ a = y.significand * 2 ^ b) : a = 0 ∧ b = 0 := by
  rcases hab with rfl | rfl
  · rw [pow_zero, Nat.mul_one] at hscaled
    exact ⟨rfl, eq_zero_of_shifted (by omega) hscaled⟩
  · rw [pow_zero, Nat.mul_one] at hscaled
    exact ⟨eq_zero_of_shifted (by omega) hscaled.symm, rfl⟩

theorem eq_of_signedSignificand (hzero : x.significand ≠ 0)
    (hsignificand : x.signedSignificand = y.signedSignificand) (hexponent : x.exponent = y.exponent) :
    x = y := by
  have habs : x.significand = y.significand := by
    rw [← natAbs_signedSignificand, hsignificand, natAbs_signedSignificand]
  have hsign : x.isNegative = y.isNegative := by
    rw [signedSignificand, signedSignificand, ← habs] at hsignificand
    cases hx : x.isNegative <;> cases hy : y.isNegative <;> simp [hx, hy] at hsignificand ⊢
    all_goals omega
  rw [← ofMagnitude_eta x, ← ofMagnitude_eta y, hsign, magnitude_eq, magnitude_eq y, habs,
    hexponent]

/-- Finite reals with the same number are the same, or zeros. -/
theorem eq_or_zero_of_compareDyadic
    (h : compareDyadic x.signedSignificand x.exponent y.signedSignificand y.exponent = .eq) :
    x = y ∨ x.magnitude = 0 ∧ y.magnitude = 0 := by
  rw [compareDyadic, compare_eq_iff_eq, Int.shiftLeft_eq, Int.shiftLeft_eq] at h
  obtain ⟨a, ha⟩ : ∃ a, (x.exponent - min x.exponent y.exponent).natAbs = a := ⟨_, rfl⟩
  obtain ⟨b, hb⟩ : ∃ b, (y.exponent - min x.exponent y.exponent).natAbs = b := ⟨_, rfl⟩
  rw [ha, hb] at h
  have habs : x.significand * 2 ^ a = y.significand * 2 ^ b := by
    have h' := congrArg Int.natAbs h
    rwa [Int.natAbs_mul, Int.natAbs_mul, natAbs_signedSignificand, natAbs_signedSignificand,
      Int.natAbs_pow, Int.natAbs_pow] at h'
  by_cases hzero : x.significand = 0
  · rw [hzero, Nat.zero_mul] at habs
    have hzero' : y.significand = 0 :=
      (Nat.mul_eq_zero.mp habs.symm).resolve_right (Nat.two_pow_pos b).ne'
    exact .inr ⟨magnitude_of_significand hzero, magnitude_of_significand hzero'⟩
  · obtain ⟨rfl, rfl⟩ := exponent_eq_of_scaled (by omega) (by omega) habs
    rw [pow_zero, mul_one, mul_one] at h
    exact .inl (eq_of_signedSignificand hzero h (by omega))

/-- Reals are equal as numbers only if they are the same, or zeros. -/
theorem eq_or_zero_of_compare? (h : x.compare? y = some .eq) :
    x = y ∨ x.magnitude = 0 ∧ y.magnitude = 0 := by
  rw [compare?] at h
  split at h
  · cases h
  · next hnumber =>
    split at h
    · exact eq_or_zero_of_compareDyadic (Option.some.inj h)
    -- an infinity is equal to the one with its sign only
    · next hfinite =>
      rw [Bool.or_eq_true, not_or, isNaN, isNaN, decide_eq_true_iff, decide_eq_true_iff] at hnumber
      rw [Bool.and_eq_true, isFinite, isFinite, decide_eq_true_iff, decide_eq_true_iff] at hfinite
      have horder := compare_eq_iff_eq.mp (Option.some.inj h)
      simp only [isFinite, decide_eq_true_iff] at horder
      refine .inl ?_
      rw [← ofMagnitude_eta x, ← ofMagnitude_eta y]
      split_ifs at horder <;> grind

end PropertyList.Binary64
