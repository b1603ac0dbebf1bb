/-
  PropertyList.Number.Integer

  Integers as text.  Decimal text is limited to `digitLimit` digits in both
  directions; hexadecimal text, which is only read, is not.
-/
import PropertyList.Number.Numeral

namespace PropertyList.Integer

/-- Whether an integer has at most `digitLimit` decimal digits. -/
def isPrintable (n : Int) : Bool := n.natAbs < Nat.pow 10 digitLimit

/-- The decimal digits of a natural number. -/
def digits (n : Nat) : List Char := Nat.toDigits 10 n

/-- Decimal text: a minus sign if negative, then the digits. -/
def decimal (n : Int) : List Char :=
  if n < 0 then '-' :: digits n.natAbs else digits n.natAbs

/-- Decimal text within the limit. -/
def decimal? (n : Int) : Option (List Char) :=
  if isPrintable n then some (decimal n) else none

/-- The integer of a decimal numeral: blanks, a sign, digits with underscores, blanks. -/
def ofDecimal? (t : Text) : Option Int := do
  let (negative, s) := takeSign (trimNumeral (numeralChars t))
  let ds ← underscored? decimalDigit? false s
  if ds.length > digitLimit then none else
  let n : Int := ofDigits 10 ds
  some (if negative then -n else n)

/-- The integer of a hexadecimal numeral, from behind its `0x`: digits with underscores, of
    which one may come first, then blanks. -/
def ofHexadecimal? (t : Text) : Option Int := do
  let ds ← underscored? hexadecimalDigit? true (trimRight (numeralChars t))
  if ds.isEmpty then none else
  some (ofDigits 16 ds : Int)

/-- The integer of a numeral that is hexadecimal if it starts with `0x`, else decimal. -/
def ofText? (t : Text) : Option Int :=
  match t with
  | .scalar '0' :: .scalar 'x' :: s => ofHexadecimal? s
  | .scalar '0' :: .scalar 'X' :: s => ofHexadecimal? s
  | _ => ofDecimal? t

end PropertyList.Integer
