/-
  PropertyList.Text.Utf16

  UTF-16 in either byte order.  `next?` joins surrogate pairs and leaves a
  surrogate without partner as it is; strict readers refuse those.
-/
import PropertyList.Text

namespace PropertyList

/-- Which byte of a unit comes first. -/
inductive ByteOrder where
  | big
  | little
  deriving DecidableEq, Inhabited

namespace Utf16

/-- The two bytes of a unit. -/
def unitBytes (order : ByteOrder) (u : Nat) : List UInt8 :=
  match order with
  | .big => [UInt8.ofNat (u / 256), UInt8.ofNat (u % 256)]
  | .little => [UInt8.ofNat (u % 256), UInt8.ofNat (u / 256)]

/-- The unit made of two bytes. -/
def unit (order : ByteOrder) (a b : UInt8) : Nat :=
  match order with
  | .big => a.toNat * 256 + b.toNat
  | .little => b.toNat * 256 + a.toNat

/-- The first half of a surrogate pair. -/
def isHigh (u : Nat) : Bool := 0xD800 ≤ u && u < 0xDC00

/-- The second half of a surrogate pair. -/
def isLow (u : Nat) : Bool := 0xDC00 ≤ u && u < 0xE000

/-- The number of the code point that a surrogate pair stands for. -/
def joined (high low : Nat) : Nat := 0x10000 + (high % 1024) * 1024 + low % 1024

/-- The units of the code point numbered `n`. -/
def units (n : Nat) : List Nat :=
  if n < 0x10000 then [n]
  else [0xD800 + (n - 0x10000) / 1024, 0xDC00 + (n - 0x10000) % 1024]

/-- The bytes of a code point. -/
def encode (order : ByteOrder) (c : CodePoint) : List UInt8 :=
  (units c.toNat).flatMap (unitBytes order)

/-- The bytes of a run of characters. -/
def encodeChars (order : ByteOrder) (cs : List Char) : List UInt8 :=
  cs.flatMap fun c => encode order (.scalar c)

/-- The code point at the front of the bytes and what follows it. -/
def next? (order : ByteOrder) : List UInt8 → Option (CodePoint × List UInt8)
  | a :: b :: s =>
    let u := unit order a b
    let alone := (CodePoint.ofNat? u).map (·, s)
    if isHigh u then
      match s with
      | c :: d :: t =>
        let v := unit order c d
        if isLow v then (CodePoint.ofNat? (joined u v)).map (·, t) else alone
      | _ => alone
    else
      alone
  | _ => none

end Utf16

end PropertyList
