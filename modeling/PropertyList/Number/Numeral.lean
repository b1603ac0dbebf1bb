/-
  PropertyList.Number.Numeral

  Numerals as people write them: digits of any script, blanks around them, and
  single underscores between digits.  `numeralChars` maps the wide alphabet to
  ASCII, and `underscored?` reads a run of digits.
-/
import PropertyList.Text.Blank
import PropertyList.Text.Digit

namespace PropertyList

/-- The most decimal digits that an integer may have when it is read from decimal text or
    written to it. -/
def digitLimit : Nat := 4300

/-- The ASCII character that stands for a code point inside a numeral; `'?'` if none does. -/
def CodePoint.numeralChar (c : CodePoint) : Char :=
  if c.toNat < 127 then c.char?.getD '?'
  else if c.isBlank then ' '
  else match c.digit? with
    | some d => Char.ofNat (0x30 + d)
    | none => '?'

/-- A text as the ASCII characters of a numeral. -/
def numeralChars (t : Text) : List Char := t.map CodePoint.numeralChar

/-- Blanks around and inside numerals, once they are ASCII. -/
def isNumeralBlank (c : Char) : Bool := (CodePoint.scalar c).isAsciiBlank

/-- The numeral without the blanks behind it. -/
def trimRight (s : List Char) : List Char := (s.reverse.dropWhile isNumeralBlank).reverse

/-- The numeral without the blanks around it. -/
def trimNumeral (s : List Char) : List Char := trimRight (s.dropWhile isNumeralBlank)

/-- The value of an ASCII decimal digit. -/
def decimalDigit? (c : Char) : Option Nat :=
  if '0' ≤ c ∧ c ≤ '9' then some (c.toNat - 0x30) else none

/-- The value of an ASCII hexadecimal digit. -/
def hexadecimalDigit? (c : Char) : Option Nat := (CodePoint.scalar c).hexDigit?

/-- The digits of a run in which an underscore may stand between two digits.  `mayPause` says
    that an underscore, or the end, may come next. -/
def underscored? (digit? : Char → Option Nat) : Bool → List Char → Option (List Nat)
  | mayPause, [] => if mayPause then some [] else none
  | mayPause, c :: s =>
    if c = '_' then
      if mayPause then underscored? digit? false s else none
    else
      match digit? c with
      | some d => (underscored? digit? true s).map (d :: ·)
      | none => none

/-- The number that digits stand for, most significant first. -/
def ofDigits (base : Nat) (ds : List Nat) : Nat := ds.foldl (fun n d => n * base + d) 0

/-- A sign in front of a numeral: whether it is a minus, and the rest. -/
def takeSign : List Char → Bool × List Char
  | '-' :: s => (true, s)
  | '+' :: s => (false, s)
  | s => (false, s)

theorem ofDigits_nil (base : Nat) : ofDigits base [] = 0 := rfl

theorem ofDigits_append_singleton (base : Nat) (ds : List Nat) (d : Nat) :
    ofDigits base (ds ++ [d]) = ofDigits base ds * base + d := by
  simp [ofDigits]

end PropertyList
