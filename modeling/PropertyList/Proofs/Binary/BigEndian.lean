/-
  PropertyList.Proofs.Binary.BigEndian

  Reading a number of fixed width gives back what was written, up to the bytes
  that the width cuts off.
-/
import PropertyList.Binary.BigEndian
import Mathlib.Tactic.Ring

namespace PropertyList

theorem foldl_ofBigEndian (bytes : List UInt8) (n : Nat) :
    bytes.foldl (fun n b => n * 256 + b.toNat) n = n * 256 ^ bytes.length + ofBigEndian bytes := by
  rw [ofBigEndian]
  induction bytes generalizing n with
  | nil => simp
  | cons b bytes ih =>
    rw [List.foldl_cons, List.foldl_cons, ih, ih (0 * 256 + b.toNat), List.length_cons]
    ring

theorem ofBigEndian_cons (b : UInt8) (bytes : List UInt8) :
    ofBigEndian (b :: bytes) = b.toNat * 256 ^ bytes.length + ofBigEndian bytes := by
  rw [ofBigEndian, List.foldl_cons, foldl_ofBigEndian, Nat.zero_mul, Nat.zero_add]

/-- A number that is written in `width` bytes is read as its remainder. -/
theorem ofBigEndian_bigEndian (width n : Nat) : ofBigEndian (bigEndian width n) = n % 256 ^ width := by
  induction width with
  | zero => simp [bigEndian, ofBigEndian, Nat.mod_one]
  | succ w ih =>
    have hpow : 2 ^ (8 * w) = 256 ^ w := by rw [Nat.pow_mul]
    rw [bigEndian, ofBigEndian_cons, ih, length_bigEndian, UInt8.toNat_ofNat']
    rw [Nat.shiftRight_eq_div_pow, hpow, Nat.pow_succ 256 w, Nat.mod_mul, Nat.add_comm, Nat.mul_comm]

theorem ofBigEndian_bigEndian_of_lt {width n : Nat} (h : n < 256 ^ width) :
    ofBigEndian (bigEndian width n) = n := by
  rw [ofBigEndian_bigEndian, Nat.mod_eq_of_lt h]

theorem ofSignedBigEndian_cons (b : UInt8) (bytes : List UInt8) :
    ofSignedBigEndian (b :: bytes) =
      if 128 ≤ b.toNat then
        (ofBigEndian (b :: bytes) : Int) - (1 <<< (8 * (bytes.length + 1)) : Nat)
      else ofBigEndian (b :: bytes) := rfl

/-- The sign of an eight-byte number is its top bit. -/
theorem ofSignedBigEndian_bigEndian_eight {n : Nat} (h : n < 0x10000000000000000) :
    ofSignedBigEndian (bigEndian 8 n) =
      if 0x8000000000000000 ≤ n then (n : Int) - 0x10000000000000000 else n := by
  have hhead : bigEndian 8 n = UInt8.ofNat (n >>> 56) :: bigEndian 7 n := rfl
  have hvalue : ofBigEndian (bigEndian 8 n) = n := ofBigEndian_bigEndian_of_lt h
  have htop : (UInt8.ofNat (n >>> 56)).toNat = n / 0x100000000000000 := by
    rw [UInt8.toNat_ofNat', Nat.shiftRight_eq_div_pow]
    omega
  rw [hhead, ofSignedBigEndian_cons, ← hhead, hvalue, htop, length_bigEndian]
  by_cases hn : 0x8000000000000000 ≤ n
  · rw [if_pos hn, if_pos (by omega)]
    rfl
  · rw [if_neg hn, if_neg (by omega)]

/-- A number below `2 ^ 64` in sixteen bytes has no sign. -/
theorem ofSignedBigEndian_bigEndian_sixteen {n : Nat} (h : n < 0x10000000000000000) :
    ofSignedBigEndian (bigEndian 16 n) = n := by
  have hhead : bigEndian 16 n = UInt8.ofNat (n >>> 120) :: bigEndian 15 n := rfl
  have hvalue : ofBigEndian (bigEndian 16 n) = n :=
    ofBigEndian_bigEndian_of_lt (Nat.lt_of_lt_of_le h (by decide))
  have htop : (UInt8.ofNat (n >>> 120)).toNat = 0 := by
    rw [UInt8.toNat_ofNat', Nat.shiftRight_eq_div_pow]
    omega
  rw [hhead, ofSignedBigEndian_cons, ← hhead, hvalue, htop, if_neg (by decide)]

end PropertyList
