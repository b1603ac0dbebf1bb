/-
  PropertyList.Binary.Record

  One object as it lies in a binary list: a marker byte, perhaps a size, and the
  content.  Containers hold references to other objects, so a record has no
  depth; `Record.encode` writes it and `Record.decodeAt?` reads it.
-/
import PropertyList.Graph
import PropertyList.Binary.Layout
import PropertyList.Text.Utf16
import PropertyList.Text.Utf8
import PropertyList.Text.Reading

namespace PropertyList.Binary

/-- An object with the numbers of its parts. -/
inductive Record where
  | scalar (s : Scalar)
  | array (items : List Nat)
  | dict (keys values : List Nat)
  deriving DecidableEq

namespace Record

/-! ## Writing -/

/-- Why an object has no record. -/
inductive Fault where
  /-- The integer, or the number of the UID, is too large. -/
  | outOfRange (n : Int)
  /-- The text holds a surrogate. -/
  | surrogate
  deriving DecidableEq

/-- A marker with a size: sizes from 15 on follow as an integer record. -/
def encodeSize (marker size : Nat) : List UInt8 :=
  if size < 15 then [UInt8.ofNat (marker + size)]
  else
    UInt8.ofNat (marker + 15) ::
      (if size < 256 then 0x10 :: bigEndian 1 size
      else if size < 65536 then 0x11 :: bigEndian 2 size
      else if size < 4294967296 then 0x12 :: bigEndian 4 size
      else 0x13 :: bigEndian 8 size)

/-- An integer in the smallest of its forms.  Up to four bytes it has no sign; the eight-byte
    form has one, and what needs the 64th bit takes sixteen bytes. -/
def encodeInt (n : Int) : Except Fault (List UInt8) :=
  if n < 0 then
    if -0x8000000000000000 ≤ n then .ok (0x13 :: bigEndian 8 (n + 0x10000000000000000).toNat)
    else .error (.outOfRange n)
  else
    let m := n.toNat
    if m < 256 then .ok (0x10 :: bigEndian 1 m)
    else if m < 65536 then .ok (0x11 :: bigEndian 2 m)
    else if m < 4294967296 then .ok (0x12 :: bigEndian 4 m)
    else if m < 0x8000000000000000 then .ok (0x13 :: bigEndian 8 m)
    else if m < 0x10000000000000000 then .ok (0x14 :: bigEndian 16 m)
    else .error (.outOfRange n)

/-- A UID in the smallest width that holds it. -/
def encodeUid (n : Nat) : Except Fault (List UInt8) :=
  if n < 256 then .ok (0x80 :: bigEndian 1 n)
  else if n < 65536 then .ok (0x81 :: bigEndian 2 n)
  else if n < 4294967296 then .ok (0x83 :: bigEndian 4 n)
  else if n < 0x10000000000000000 then .ok (0x87 :: bigEndian 8 n)
  else .error (.outOfRange n)

/-- Text as ASCII if it is, else as UTF-16; the size counts units. -/
def encodeText (t : Text) : Except Fault (List UInt8) :=
  if t.all CodePoint.isAscii then
    .ok (encodeSize 0x50 t.length ++ t.map fun c => UInt8.ofNat c.toNat)
  else
    match t.chars? with
    | some cs =>
      let bytes := Utf16.encodeChars .big cs
      .ok (encodeSize 0x60 (bytes.length / 2) ++ bytes)
    | none => .error .surrogate

/-- The record of a scalar. -/
def encodeScalar : Scalar → Except Fault (List UInt8)
  | .null => .ok [0x00]
  | .bool false => .ok [0x08]
  | .bool true => .ok [0x09]
  | .int n => encodeInt n
  | .real x => .ok (0x23 :: bigEndian 8 x.bits.toNat)
  | .date t => .ok (0x33 :: bigEndian 8 t.secondsSinceEpoch.bits.toNat)
  | .data bytes => .ok (encodeSize 0x40 bytes.length ++ bytes)
  | .text t => encodeText t
  | .uid n => encodeUid n

/-- References of a given width. -/
def encodeRefs (refSize : Nat) (refs : List Nat) : List UInt8 := refs.flatMap (bigEndian refSize)

/-- The record of an object. -/
def encode (refSize : Nat) : Record → Except Fault (List UInt8)
  | .scalar s => encodeScalar s
  | .array items => .ok (encodeSize 0xA0 items.length ++ encodeRefs refSize items)
  | .dict keys values =>
    .ok (encodeSize 0xD0 keys.length ++ encodeRefs refSize keys ++ encodeRefs refSize values)

/-! ## Reading -/

/-- Exactly `n` bytes, and what follows them. -/
def takeExact? (n : Nat) (s : List UInt8) : Option (List UInt8 × List UInt8) :=
  let front := s.take n
  if front.length = n then some (front, s.drop n) else none

/-- The size that goes with a marker whose low half is `low`, and what follows it.  Of the byte
    that introduces a long size only the two lowest bits count. -/
def takeSize? (low : Nat) (s : List UInt8) : Option (Nat × List UInt8) :=
  if low = 15 then
    match s with
    | b :: s => (takeExact? (1 <<< (b.toNat % 4)) s).map fun (bytes, s) => (ofBigEndian bytes, s)
    | [] => none
  else
    some (low, s)

/-- Bytes cut into `count` pieces of one size. -/
def pieces (size : Nat) : Nat → List UInt8 → List (List UInt8)
  | 0, _ => []
  | count + 1, s => s.take size :: pieces size count (s.drop size)

/-- `count` numbers of a given width, of at least one byte, and what follows them. -/
def takeNumbers? (width count : Nat) (s : List UInt8) : Option (List Nat × List UInt8) :=
  if width = 0 then none else
  (takeExact? (width * count) s).map fun (bytes, s) => ((pieces width count bytes).map ofBigEndian, s)

/-- A real from its eight bytes. -/
def double (bytes : List UInt8) : Binary64 := ⟨UInt64.ofNat (ofBigEndian bytes)⟩

/-- ASCII bytes as text. -/
def asciiText? (bytes : List UInt8) : Option Text :=
  bytes.mapM fun b => if b.toNat < 128 then CodePoint.ofNat? b.toNat else none

/-- UTF-16 bytes as text, with no surrogate left alone. -/
def utf16Text? (bytes : List UInt8) : Option Text :=
  (decode? (Utf16.next? .big) bytes).bind fun t => if (Text.chars? t).isSome then some t else none

/-- The record behind a marker byte with the halves `high` and `low`.  Integers and UIDs make do
    with the bytes that are there; integers from eight bytes on have a sign. -/
def decodeBody? (refSize high low : Nat) (s : List UInt8) : Option Record :=
  match high with
  | 0x0 =>
    match low with
    | 0x0 => some (.scalar .null)
    | 0x8 => some (.scalar (.bool false))
    | 0x9 => some (.scalar (.bool true))
    | 0xF => some (.scalar (.data []))
    | _ => none
  | 0x1 =>
    let bytes := s.take (1 <<< low)
    some (.scalar (.int (if 3 ≤ low then ofSignedBigEndian bytes else (ofBigEndian bytes : Int))))
  | 0x2 =>
    match low with
    | 0x2 => (takeExact? 4 s).map fun (b, _) => .scalar (.real (.ofBinary32 (ofBigEndian b)))
    | 0x3 => (takeExact? 8 s).map fun (b, _) => .scalar (.real (double b))
    | _ => none
  | 0x3 =>
    if low = 0x3 then do
      let (b, _) ← takeExact? 8 s
      let t ← DateTime.ofSeconds? (double b)
      some (.scalar (.date t))
    else none
  | 0x4 => do
    let (size, s) ← takeSize? low s
    let (b, _) ← takeExact? size s
    some (.scalar (.data b))
  | 0x5 => do
    let (size, s) ← takeSize? low s
    let (b, _) ← takeExact? size s
    let t ← asciiText? b
    some (.scalar (.text t))
  | 0x6 => do
    let (size, s) ← takeSize? low s
    let (b, _) ← takeExact? (2 * size) s
    let t ← utf16Text? b
    some (.scalar (.text t))
  | 0x8 =>
    let n := ofBigEndian (s.take (low + 1))
    if n < 0x10000000000000000 then some (.scalar (.uid n)) else none
  | 0xA => do
    let (size, s) ← takeSize? low s
    let (items, _) ← takeNumbers? refSize size s
    some (.array items)
  | 0xD => do
    let (size, s) ← takeSize? low s
    let (keys, s) ← takeNumbers? refSize size s
    let (values, _) ← takeNumbers? refSize size s
    some (.dict keys values)
  | _ => none

/-- The record at the start of some bytes; what follows it does not matter. -/
def decode? (refSize : Nat) : List UInt8 → Option Record
  | [] => none
  | b :: s => decodeBody? refSize (b.toNat / 16) (b.toNat % 16) s

end Record

end PropertyList.Binary
