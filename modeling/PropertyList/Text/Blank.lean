/-
  PropertyList.Text.Blank

  White space.  `isBlank` is the wide notion, by the Unicode properties
  `White_Space` and bidirectional class B, S or WS; `isAsciiBlank` is the narrow
  notion that numbers use after the wide one has been mapped to it.
-/
import PropertyList.Text

namespace PropertyList

/-- White space in the wide sense. -/
def CodePoint.isBlank (c : CodePoint) : Bool :=
  let n := c.toNat
  (9 ≤ n && n ≤ 13) || (28 ≤ n && n ≤ 32) || n == 0x85 || n == 0xA0 || n == 0x1680 ||
  (0x2000 ≤ n && n ≤ 0x200A) || n == 0x2028 || n == 0x2029 || n == 0x202F || n == 0x205F ||
  n == 0x3000

/-- A space, or one of the five control characters from tab to carriage return. -/
def CodePoint.isAsciiBlank (c : CodePoint) : Bool :=
  let n := c.toNat
  n == 32 || (9 ≤ n && n ≤ 13)

/-- The text without what satisfies `p` at its two ends. -/
def Text.trim (p : CodePoint → Bool) (t : Text) : Text :=
  ((t.dropWhile p).reverse.dropWhile p).reverse

end PropertyList
