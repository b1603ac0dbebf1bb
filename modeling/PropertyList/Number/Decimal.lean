/-
  PropertyList.Number.Decimal

  Reals as decimal text.  `shortest` is the decimal with the fewest digits that
  reads back as the same real, and of several such decimals the nearest;
  `text` lays it out, and `ofNumeral?` reads a numeral.
-/
import PropertyList.Number.Binary64
import PropertyList.Number.Numeral
import PropertyList.Number.Integer

namespace PropertyList

/-- The number `digits * 10 ^ exponent`. -/
structure Decimal where
  digits : Nat
  exponent : Int
  deriving DecidableEq

namespace Decimal

/-- The real nearest to a decimal, with a given sign. -/
def toBinary64 (d : Decimal) (negative : Bool) : Binary64 :=
  Binary64.roundDecimal negative d.digits d.exponent

end Decimal

namespace Binary64

/-! ## The shortest decimal -/

/-- The magnitude of a finite number as a fraction. -/
def ratio (x : Binary64) : Nat × Nat :=
  if x.exponent < 0 then (x.significand, 1 <<< x.exponent.natAbs)
  else (x.significand <<< x.exponent.natAbs, 1)

/-- Whether `num / den` is at least `10 ^ p`. -/
def reaches (num den : Nat) (p : Int) : Bool :=
  if p < 0 then den ≤ num * Nat.pow 10 p.natAbs else den * Nat.pow 10 p.natAbs ≤ num

/-- The first `p` from `start` on, within `fuel` steps, with `num / den < 10 ^ p`. -/
def pointFrom (num den : Nat) : Nat → Int → Int
  | 0, p => p
  | fuel + 1, p => if reaches num den p then pointFrom num den fuel (p + 1) else p

/-- The least `p` with `num / den < 10 ^ p`: how many digits stand in front of the point.  The
    binary logarithm gives a bound from below that is at most four steps off. -/
def pointPlace (num den : Nat) : Int :=
  pointFrom num den 5 (((num.log2 : Int) - (den.log2 : Int) - 1) * 30103 / 100000 - 1)

/-- The two neighbours of `num / den` among the multiples of `10 ^ k`, the nearer one first; of
    two equally near ones the even one. -/
def neighbours (num den : Nat) (k : Int) : List Decimal :=
  let (n, d) : Nat × Nat :=
    if k < 0 then (num * Nat.pow 10 k.natAbs, den) else (num, den * Nat.pow 10 k.natAbs)
  let q := n / d
  let r := n % d
  let below : Decimal := ⟨q, k⟩
  let above : Decimal := ⟨q + 1, k⟩
  if 2 * r < d then [below, above]
  else if d < 2 * r then [above, below]
  else if q % 2 = 0 then [below, above]
  else [above, below]

/-- All digits of a finite number. -/
def exactDecimal (x : Binary64) : Decimal :=
  if x.exponent < 0 then ⟨x.significand * Nat.pow 5 x.exponent.natAbs, x.exponent⟩
  else ⟨x.significand <<< x.exponent.natAbs, 0⟩

/-- The nearest decimal with the fewest digits, but at least `count` and less than
    `count + fuel`, that reads back as `x`; all digits if there is none. -/
def shortestFrom (x : Binary64) (num den : Nat) (point : Int) : Nat → Nat → Decimal
  | 0, _ => x.exactDecimal
  | fuel + 1, count =>
    match (neighbours num den (point - count)).find? (·.toBinary64 x.isNegative = x) with
    | some d => d
    | none => shortestFrom x num den point fuel (count + 1)

/-- The shortest decimal that reads back as a finite number; 17 digits always suffice. -/
def shortest (x : Binary64) : Decimal :=
  if x.significand = 0 then ⟨0, 0⟩ else
  let (num, den) := x.ratio
  shortestFrom x num den (pointPlace num den) 17 1

/-! ## Layout -/

/-- The digits without the zeros at their end. -/
def significantDigits (ds : List Char) : List Char :=
  match (ds.reverse.dropWhile (· = '0')).reverse with
  | [] => ['0']
  | ds => ds

/-- The digits of a magnitude with `point` of them in front of the point: positional from
    `0.0001` up to sixteen digits in front of the point, and with an exponent of at least two
    digits elsewhere. -/
def layout (ds : List Char) (point : Int) : List Char :=
  if -4 < point ∧ point ≤ 16 then
    if point ≤ 0 then
      '0' :: '.' :: (List.replicate point.natAbs '0' ++ ds)
    else if ds.length ≤ point.natAbs then
      ds ++ List.replicate (point.natAbs - ds.length) '0' ++ ['.', '0']
    else
      ds.take point.natAbs ++ '.' :: ds.drop point.natAbs
  else
    let e := point - 1
    let es := Integer.digits e.natAbs
    let es := if es.length < 2 then '0' :: es else es
    let mantissa := match ds with
      | d :: rest@(_ :: _) => d :: '.' :: rest
      | ds => ds
    mantissa ++ 'e' :: (if e < 0 then '-' else '+') :: es

/-- The text of a real: its shortest decimal, or `inf`, `-inf`, `nan`. -/
def text (x : Binary64) : List Char :=
  if x.isNaN then "nan".toList else
  let magnitude :=
    if x.isFinite then
      let d := x.shortest
      let ds := Integer.digits d.digits
      let point : Int := if d.digits = 0 then 1 else ds.length + d.exponent
      layout (significantDigits ds) point
    else
      "inf".toList
  if x.isNegative then '-' :: magnitude else magnitude

/-! ## Reading -/

/-- A run of ASCII digits at the front, and what follows. -/
def takeDigits (s : List Char) : List Char × List Char := s.span (decimalDigit? · |>.isSome)

/-- The number that a run of ASCII digits stands for. -/
def ofDigitChars (s : List Char) : Nat := ofDigits 10 (s.filterMap decimalDigit?)

/-- The fraction behind a point, and what follows; nothing if there is no point. -/
def takeFraction : List Char → List Char × List Char
  | '.' :: s => takeDigits s
  | s => ([], s)

/-- The exponent at the end of a numeral; an exponent needs at least one digit. -/
def takeExponent? : List Char → Option Int
  | [] => some 0
  | c :: s =>
    if c = 'e' ∨ c = 'E' then
      let (negative, s) := takeSign s
      match takeDigits s with
      | (ds@(_ :: _), []) =>
        let n : Int := ofDigitChars ds
        some (if negative then -n else n)
      | _ => none
    else
      none

/-- The real of a numeral without sign, of digits, perhaps a point, and perhaps an exponent. -/
def ofMagnitudeChars? (negative : Bool) (s : List Char) : Option Binary64 := do
  let (whole, s) := takeDigits s
  let (fraction, s) := takeFraction s
  if whole.isEmpty && fraction.isEmpty then none else
  let e ← takeExponent? s
  some (roundDecimal negative (ofDigitChars (whole ++ fraction)) (e - fraction.length))

/-- An underscore that stands anywhere but between two digits makes a numeral void; the
    others drop out.  `afterDigit` says whether a digit stands in front. -/
def dropUnderscores? : Bool → List Char → Option (List Char)
  | _, [] => some []
  | afterDigit, c :: s =>
    if c = '_' then
      match s with
      | d :: _ =>
        if afterDigit && (decimalDigit? d).isSome then dropUnderscores? false s else none
      | [] => none
    else
      (dropUnderscores? (decimalDigit? c).isSome s).map (c :: ·)

/-- The real of a numeral: a sign, then digits with at most a point and an exponent, or one of
    `inf`, `infinity` and `nan` in any case. -/
def ofNumeral? (s : List Char) : Option Binary64 :=
  let (negative, s) := takeSign s
  let word := s.map Char.toLower
  if word = "inf".toList ∨ word = "infinity".toList then some (infinity negative)
  else if word = "nan".toList then some (nan negative)
  else ofMagnitudeChars? negative s

/-- The real of a text with a numeral, which may have blanks around it and underscores between
    its digits. -/
def ofText? (t : Text) : Option Binary64 :=
  (dropUnderscores? false (trimNumeral (numeralChars t))).bind ofNumeral?

end Binary64

end PropertyList
