/-
  PropertyList.DateTime

  Dates of the proleptic Gregorian calendar with a time of day in microseconds
  and no zone.  `dayNumber` counts days from 1 January of the year 1, and
  `ofDayNumber` inverts it.  Binary lists store seconds since 2001, XML lists a
  text such as `2024-02-29T12:30:00Z`.
-/
import PropertyList.Number.Binary64
import PropertyList.Number.Numeral
import PropertyList.Number.Integer

namespace PropertyList

/-! ## The calendar -/

namespace Calendar

/-- Every fourth year is a leap year, but of the full centuries only every fourth one. -/
def isLeapYear (year : Nat) : Bool := year % 4 = 0 && (year % 100 ≠ 0 || year % 400 = 0)

/-- The number of days of a month. -/
def daysInMonth (year month : Nat) : Nat :=
  if month = 2 then (if isLeapYear year then 29 else 28)
  else if month = 4 ∨ month = 6 ∨ month = 9 ∨ month = 11 then 30
  else 31

/-- The days of the years before a year. -/
def daysBeforeYear (year : Nat) : Nat :=
  let y := year - 1
  y * 365 + y / 4 - y / 100 + y / 400

/-- The days of the months before a month. -/
def daysBeforeMonth (year : Nat) : Nat → Nat
  | 0 => 0
  | 1 => 0
  | month + 2 => daysBeforeMonth year (month + 1) + daysInMonth year (month + 1)

/-- The days before a date. -/
def dayNumber (year month day : Nat) : Nat :=
  daysBeforeYear year + daysBeforeMonth year month + (day - 1)

/-- The year that a day falls in: an estimate that is at most one too large, set right. -/
def yearOfDay (n : Nat) : Nat :=
  let guess := n * 400 / 146097 + 1
  if n < daysBeforeYear guess then guess - 1
  else if daysBeforeYear (guess + 1) ≤ n then guess + 1
  else guess

/-- The last month of `candidates`, tried from the largest, that starts on or before the day
    `n` of a year. -/
def monthOfDay (year n : Nat) : Nat → Nat
  | 0 => 1
  | month + 1 => if daysBeforeMonth year (month + 1) ≤ n then month + 1 else monthOfDay year n month

/-- Year, month and day of the day with `n` days before it. -/
def ofDayNumber (n : Nat) : Nat × Nat × Nat :=
  let year := yearOfDay n
  let inYear := n - daysBeforeYear year
  let month := monthOfDay year inYear 12
  (year, month, inYear - daysBeforeMonth year month + 1)

end Calendar

/-- A date and a time of day. -/
structure DateTime where
  year : Nat
  month : Nat
  day : Nat
  hour : Nat
  minute : Nat
  second : Nat
  microsecond : Nat
  deriving DecidableEq, Inhabited

namespace DateTime

/-- Years have at most four digits, and every field stays within its range. -/
def IsValid (t : DateTime) : Prop :=
  1 ≤ t.year ∧ t.year ≤ 9999 ∧ 1 ≤ t.month ∧ t.month ≤ 12 ∧
  1 ≤ t.day ∧ t.day ≤ Calendar.daysInMonth t.year t.month ∧
  t.hour < 24 ∧ t.minute < 60 ∧ t.second < 60 ∧ t.microsecond < 1000000

instance (t : DateTime) : Decidable t.IsValid := by unfold IsValid; infer_instance

/-- The date itself, if it is valid. -/
def checked? (t : DateTime) : Option DateTime := if t.IsValid then some t else none

/-- The fields in order of size, for comparison. -/
def fields (t : DateTime) : List Nat :=
  [t.year, t.month, t.day, t.hour, t.minute, t.second, t.microsecond]

/-! ## Seconds since 2001 -/

/-- Microseconds from the start of the year 1. -/
def microseconds (t : DateTime) : Nat :=
  ((Calendar.dayNumber t.year t.month t.day * 24 + t.hour) * 60 + t.minute) * 60000000 +
    t.second * 1000000 + t.microsecond

/-- The date and time a number of microseconds after the start of the year 1. -/
def ofMicroseconds (n : Nat) : DateTime :=
  let (year, month, day) := Calendar.ofDayNumber (n / 86400000000)
  { year, month, day
    hour := n / 3600000000 % 24
    minute := n / 60000000 % 60
    second := n / 1000000 % 60
    microsecond := n % 1000000 }

/-- The first moment of 2001. -/
def epoch : DateTime := ⟨2001, 1, 1, 0, 0, 0, 0⟩

/-- Microseconds from the start of 2001. -/
def sinceEpoch (t : DateTime) : Int := (t.microseconds : Int) - (epoch.microseconds : Int)

/-- The date a number of microseconds after the start of 2001; `none` outside the years 1 to
    9999. -/
def ofSinceEpoch? (n : Int) : Option DateTime :=
  let n := n + epoch.microseconds
  if n < 0 then none else (ofMicroseconds n.toNat).checked?

/-- The real number of seconds from the start of 2001. -/
def secondsSinceEpoch (t : DateTime) : Binary64 :=
  Binary64.roundRatio (t.sinceEpoch < 0) t.sinceEpoch.natAbs 1000000

/-- `m * 2 ^ e` rounded to an integer, a half going to the even neighbour. -/
def roundToInt (m e : Int) : Int :=
  if 0 ≤ e then m <<< e.natAbs else
  let d : Int := (1 : Int) <<< e.natAbs
  let q := m / d
  let r := m % d
  if 2 * r < d then q
  else if d < 2 * r then q + 1
  else q + q % 2

/-- Seconds as microseconds.  The part after the point is scaled as a real first, and then
    the sum is rounded. -/
def microsecondsOfSeconds (x : Binary64) : Int :=
  let m := x.signedSignificand
  let e := x.exponent
  if 0 ≤ e then m <<< e.natAbs * 1000000 else
  let d : Int := (1 : Int) <<< e.natAbs
  let whole := Int.tdiv m d
  let part := Binary64.roundDyadic (Int.tmod m d * 1000000) e
  whole * 1000000 + roundToInt part.signedSignificand part.exponent

/-- The date a real number of seconds after the start of 2001. -/
def ofSeconds? (x : Binary64) : Option DateTime :=
  if x.isFinite then ofSinceEpoch? (microsecondsOfSeconds x) else none

/-! ## Text -/

/-- At least `width` decimal digits. -/
def padded (width n : Nat) : List Char :=
  let ds := Integer.digits n
  List.replicate (width - ds.length) '0' ++ ds

/-- The text of a date, to the second. -/
def toChars (t : DateTime) : List Char :=
  padded 4 t.year ++ '-' :: padded 2 t.month ++ '-' :: padded 2 t.day ++
  'T' :: padded 2 t.hour ++ ':' :: padded 2 t.minute ++ ':' :: padded 2 t.second ++ ['Z']

/-- A field of exactly `width` ASCII digits, and what follows it. -/
def takeField? (width : Nat) (s : List Char) : Option (Nat × List Char) :=
  match (s.take width).mapM decimalDigit? with
  | some ds => if ds.length = width then some (ofDigits 10 ds, s.drop width) else none
  | none => none

/-- Two-digit fields, each behind its separator, as long as they follow. -/
def takeFields : List Char → List Char → List Nat × List Char
  | [], s => ([], s)
  | separator :: separators, s =>
    match s with
    | c :: rest =>
      if c = separator then
        match takeField? 2 rest with
        | some (n, rest) =>
          let (ns, rest) := takeFields separators rest
          (n :: ns, rest)
        | none => ([], s)
      else ([], s)
    | [] => ([], s)

/-- The date at the start of a text: a year, month and day, then perhaps hours, minutes and
    seconds, and a `Z`.  What follows the `Z` does not matter. -/
def ofChars? (s : List Char) : Option DateTime := do
  let (year, s) ← takeField? 4 s
  let (fields, s) := takeFields ['-', '-', 'T', ':', ':'] s
  if s.head? ≠ some 'Z' then none else
  match fields with
  | month :: day :: time =>
    checked? {
      year, month, day
      hour := time[0]?.getD 0
      minute := time[1]?.getD 0
      second := time[2]?.getD 0
      microsecond := 0 }
  | _ => none

end DateTime

end PropertyList
