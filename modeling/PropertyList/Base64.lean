/-
  PropertyList.Base64

  Bytes as base64 text.  Reading is lenient: what is neither a digit of the
  alphabet nor padding is skipped, and so is padding where none is due; the text
  ends where its padding is complete.
-/

namespace PropertyList.Base64

/-! ## The alphabet -/

/-- The digit with a value below 64. -/
def digit (n : Nat) : Char :=
  if n < 26 then Char.ofNat (0x41 + n)
  else if n < 52 then Char.ofNat (0x61 + (n - 26))
  else if n < 62 then Char.ofNat (0x30 + (n - 52))
  else if n = 62 then '+'
  else '/'

/-- The value of a digit. -/
def value? (c : Char) : Option Nat :=
  let n := c.toNat
  if 0x41 ≤ n ∧ n ≤ 0x5A then some (n - 0x41)
  else if 0x61 ≤ n ∧ n ≤ 0x7A then some (n - 0x61 + 26)
  else if 0x30 ≤ n ∧ n ≤ 0x39 then some (n - 0x30 + 52)
  else if c = '+' then some 62
  else if c = '/' then some 63
  else none

theorem value?_digit : ∀ n, n < 64 → value? (digit n) = some n := by decide

/-! ## Writing -/

/-- The digits of some bytes, padded to whole groups of four. -/
def encode : List UInt8 → List Char
  | [] => []
  | [a] =>
    let a := a.toNat
    [digit (a / 4), digit (a % 4 * 16), '=', '=']
  | [a, b] =>
    let a := a.toNat
    let b := b.toNat
    [digit (a / 4), digit (a % 4 * 16 + b / 16), digit (b % 16 * 4), '=']
  | a :: b :: c :: rest =>
    let a := a.toNat
    let b := b.toNat
    let c := c.toNat
    digit (a / 4) :: digit (a % 4 * 16 + b / 16) :: digit (b % 16 * 4 + c / 64) ::
      digit (c % 64) :: encode rest

/-- Bytes cut into chunks of a size, the last one perhaps shorter; `fuel` bounds their number. -/
def chunks (size : Nat) : Nat → List UInt8 → List (List UInt8)
  | 0, _ => []
  | _, [] => []
  | fuel + 1, bytes => bytes.take size :: chunks size fuel (bytes.drop size)

/-- The digits in lines of at most `width` characters. -/
def encodeLines (width : Nat) (bytes : List UInt8) : List (List Char) :=
  (chunks (width / 4 * 3) bytes.length bytes).map encode

/-! ## Reading -/

/-- Where reading stands inside a group: how many digits were taken, the bits of the last one
    that are still due, and how much padding was seen since. -/
structure Phase where
  taken : Nat
  bits : Nat
  pads : Nat

/-- The phase in front of a group. -/
def Phase.start : Phase := ⟨0, 0, 0⟩

/-- The bytes of a text, after those in `done`, which holds the last byte first; `none` if it
    ends inside a group. -/
def decodeFrom (p : Phase) (done : List UInt8) : List Char → Option (List UInt8)
  | [] => if p.taken = 0 then some done.reverse else none
  | c :: s =>
    if c = '=' then
      if p.taken < 2 then decodeFrom p done s
      else if 4 ≤ p.taken + (p.pads + 1) then some done.reverse
      else decodeFrom { p with pads := p.pads + 1 } done s
    else
      match value? c with
      | none => decodeFrom p done s
      | some v =>
        match p.taken with
        | 0 => decodeFrom ⟨1, v, 0⟩ done s
        | 1 => decodeFrom ⟨2, v % 16, 0⟩ (UInt8.ofNat (p.bits * 4 + v / 16) :: done) s
        | 2 => decodeFrom ⟨3, v % 4, 0⟩ (UInt8.ofNat (p.bits * 16 + v / 4) :: done) s
        | _ => decodeFrom .start (UInt8.ofNat (p.bits * 64 + v) :: done) s

/-- The bytes that a text stands for. -/
def decode? (s : List Char) : Option (List UInt8) := decodeFrom .start [] s

end PropertyList.Base64
