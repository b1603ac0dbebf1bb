/-
  PropertyList.Text.Utf32

  UTF-32 in either byte order, surrogates included.
-/
import PropertyList.Text.Utf16

namespace PropertyList.Utf32

/-- The code point at the front of the bytes and what follows it. -/
def next? (order : ByteOrder) : List UInt8 → Option (CodePoint × List UInt8)
  | a :: b :: c :: d :: s =>
    let n := match order with
      | .big => Utf16.unit .big a b * 65536 + Utf16.unit .big c d
      | .little => Utf16.unit .little c d * 65536 + Utf16.unit .little a b
    (CodePoint.ofNat? n).map (·, s)
  | _ => none

end PropertyList.Utf32
