/-
  PropertyList.Binary.BigEndian

  Numbers of fixed width, most significant byte first.
-/

namespace PropertyList

/-- The last `width` bytes of a number, most significant first. -/
def bigEndian (width n : Nat) : List UInt8 :=
  match width with
  | 0 => []
  | width + 1 => UInt8.ofNat (n >>> (8 * width)) :: bigEndian width n

/-- The number that bytes stand for, most significant first. -/
def ofBigEndian (bytes : List UInt8) : Nat := bytes.foldl (fun n b => n * 256 + b.toNat) 0

/-- The number that bytes stand for in two's complement. -/
def ofSignedBigEndian (bytes : List UInt8) : Int :=
  let n := ofBigEndian bytes
  match bytes with
  | b :: _ => if 128 ≤ b.toNat then (n : Int) - (1 <<< (8 * bytes.length) : Nat) else n
  | [] => 0

@[simp] theorem length_bigEndian (width n : Nat) : (bigEndian width n).length = width := by
  induction width with
  | zero => rfl
  | succ w ih => simp [bigEndian, ih]

end PropertyList
