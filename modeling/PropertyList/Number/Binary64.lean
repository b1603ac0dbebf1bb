/-
  PropertyList.Number.Binary64

  Reals as bit patterns of IEEE 754 binary64.  A finite pattern is decoded to
  sign, significand and exponent, and all arithmetic is exact integer
  arithmetic; `roundRatio` is the one place that rounds.
-/

namespace PropertyList

/-- A binary64 number, by its bits. -/
structure Binary64 where
  bits : UInt64
  deriving DecidableEq, Inhabited

namespace Binary64

/-! ## Fields -/

/-- The weight of the sign bit, `2 ^ 63`. -/
def signUnit : Nat := 0x8000000000000000

/-- The weight of the lowest bit of the exponent, `2 ^ 52`; also that of the leading bit of a
    significand, which is not stored. -/
def exponentUnit : Nat := 0x10000000000000

/-- The sign bit. -/
def isNegative (x : Binary64) : Bool := signUnit ≤ x.bits.toNat

/-- The bits without the sign. -/
def magnitude (x : Binary64) : Nat := x.bits.toNat % signUnit

/-- The eleven bits of the exponent. -/
def exponentField (x : Binary64) : Nat := x.magnitude / exponentUnit

/-- The 52 bits of the fraction. -/
def fraction (x : Binary64) : Nat := x.magnitude % exponentUnit

/-- The magnitude of infinity; those above it are no numbers. -/
def infinityMagnitude : Nat := 2047 * exponentUnit

/-- Whether this is no number. -/
def isNaN (x : Binary64) : Bool := infinityMagnitude < x.magnitude

/-- Neither infinite nor no number. -/
def isFinite (x : Binary64) : Bool := x.magnitude < infinityMagnitude

/-- A number with given sign and magnitude bits. -/
def ofMagnitude (negative : Bool) (magnitude : Nat) : Binary64 :=
  ⟨UInt64.ofNat ((if negative then signUnit else 0) + magnitude)⟩

/-- The magnitude of a quiet number that is none, with no payload. -/
def quietMagnitude : Nat := infinityMagnitude + exponentUnit / 2

/-- The quiet number that is none, with no payload. -/
def nan (negative : Bool) : Binary64 := ofMagnitude negative quietMagnitude

/-- The infinity of a sign. -/
def infinity (negative : Bool) : Binary64 := ofMagnitude negative infinityMagnitude

/-- The integer factor of a finite number `± significand * 2 ^ exponent`. -/
def significand (x : Binary64) : Nat :=
  if x.exponentField = 0 then x.fraction else x.fraction + exponentUnit

/-- The power of two of a finite number `± significand * 2 ^ exponent`. -/
def exponent (x : Binary64) : Int :=
  if x.exponentField = 0 then -1074 else (x.exponentField : Int) - 1075

/-- The significand with its sign. -/
def signedSignificand (x : Binary64) : Int :=
  if x.isNegative then -(x.significand : Int) else x.significand

/-! ## Rounding -/

/-- `num / den` as a whole number of units, a half going to the even neighbour. -/
def roundHalfEven (num den : Nat) : Nat :=
  let q := num / den
  let r := num % den
  if 2 * r < den then q
  else if den < 2 * r then q + 1
  else q + q % 2

/-- `num / den / 2 ^ k` as a fraction of two natural numbers. -/
def scaled (num den : Nat) (k : Int) : Nat × Nat :=
  if k < 0 then (num <<< k.natAbs, den) else (num, den <<< k.natAbs)

/-- The exponent at which `num / den` has 53 significant bits, but at least that of the
    smallest numbers. -/
def roundingExponent (num den : Nat) : Int :=
  let k : Int := (num.log2 : Int) - (den.log2 : Int) - 53
  let (n, d) := scaled num den k
  let k := if n / d < 2 * exponentUnit then k else k + 1
  max k (-1074)

/-- The number nearest to `num / den`; a tie goes to the even one, and what lies beyond the
    largest number to infinity. -/
def roundRatio (negative : Bool) (num den : Nat) : Binary64 :=
  if num = 0 then ofMagnitude negative 0 else
  let k := roundingExponent num den
  let (n, d) := scaled num den k
  let magnitude := (k + 1074).toNat * exponentUnit + roundHalfEven n d
  ofMagnitude negative (min magnitude infinityMagnitude)

/-- The number nearest to an integer times a power of two. -/
def roundDyadic (m : Int) (e : Int) : Binary64 :=
  let negative := m < 0
  if e < 0 then roundRatio negative m.natAbs (1 <<< e.natAbs)
  else roundRatio negative (m.natAbs <<< e.natAbs) 1

/-- The number nearest to `digits * 10 ^ exponent`.  What is certainly beyond the largest
    number, or below half of the smallest one, is settled without computing the power. -/
def roundDecimal (negative : Bool) (digits : Nat) (exponent : Int) : Binary64 :=
  if digits = 0 then ofMagnitude negative 0
  else if exponent < 0 then
    if digits.log2 + 1076 ≤ 3 * exponent.natAbs then ofMagnitude negative 0
    else roundRatio negative digits (Nat.pow 10 exponent.natAbs)
  else if 400 < exponent then infinity negative
  else roundRatio negative (digits * Nat.pow 10 exponent.natAbs) 1

/-! ## Single precision -/

/-- The number that 32 bits of single precision stand for; a signalling one becomes quiet. -/
def ofBinary32 (bits : Nat) : Binary64 :=
  let negative := decide (0x80000000 ≤ bits)
  let field : Nat := bits / 0x800000 % 256
  let fraction : Nat := bits % 0x800000
  if field = 255 then
    if fraction = 0 then infinity negative
    else ofMagnitude negative (quietMagnitude + fraction % 0x400000 * 0x20000000)
  else
    let m : Nat := if field = 0 then fraction else fraction + 0x800000
    let e : Int := if field = 0 then -149 else (field : Int) - 150
    if e < 0 then roundRatio negative m (1 <<< e.natAbs)
    else roundRatio negative (m <<< e.natAbs) 1

/-! ## Comparison -/

/-- Compares `m * 2 ^ e` with `m' * 2 ^ e'`. -/
def compareDyadic (m : Int) (e : Int) (m' : Int) (e' : Int) : Ordering :=
  let low := min e e'
  compare (m <<< (e - low).natAbs) (m' <<< (e' - low).natAbs)

/-- Compares two reals as numbers; `none` if one of them is no number. -/
def compare? (x y : Binary64) : Option Ordering :=
  if x.isNaN || y.isNaN then none
  else if x.isFinite && y.isFinite then
    some (compareDyadic x.signedSignificand x.exponent y.signedSignificand y.exponent)
  else
    -- an infinity has a larger magnitude than all finite numbers
    let order (z : Binary64) : Int :=
      if z.isFinite then 0 else if z.isNegative then -1 else 1
    some (compare (order x) (order y))

/-- Compares an integer with a real; `none` if the real is no number. -/
def compareInt? (n : Int) (x : Binary64) : Option Ordering :=
  if x.isNaN then none
  else if x.isFinite then some (compareDyadic n 0 x.signedSignificand x.exponent)
  else some (if x.isNegative then .gt else .lt)

end Binary64

end PropertyList
