/-
  PropertyList.Binary.Layout

  The frame of a binary list: the header, the objects, the table of their
  offsets, and a trailer of 32 bytes that says how the rest is to be read.
-/
import PropertyList.Binary.BigEndian

namespace PropertyList.Binary

/-- The eight bytes `bplist00` at the start. -/
def header : List UInt8 := [0x62, 0x70, 0x6C, 0x69, 0x73, 0x74, 0x30, 0x30]

/-- Whether bytes start with the header. -/
def hasHeader (bytes : List UInt8) : Bool := header.isPrefixOf bytes

/-- What the trailer says: the widths of offsets and references, how many objects there are,
    which one is the root, and where the table of offsets starts. -/
structure Trailer where
  offsetSize : Nat
  refSize : Nat
  objectCount : Nat
  root : Nat
  tableOffset : Nat
  deriving DecidableEq

namespace Trailer

/-- The trailer as 32 bytes. -/
def encode (t : Trailer) : List UInt8 :=
  bigEndian 6 0 ++ bigEndian 1 t.offsetSize ++ bigEndian 1 t.refSize ++
  bigEndian 8 t.objectCount ++ bigEndian 8 t.root ++ bigEndian 8 t.tableOffset

/-- The trailer that 32 bytes hold. -/
def decode (bytes : List UInt8) : Trailer where
  offsetSize := ofBigEndian ((bytes.drop 6).take 1)
  refSize := ofBigEndian ((bytes.drop 7).take 1)
  objectCount := ofBigEndian ((bytes.drop 8).take 8)
  root := ofBigEndian ((bytes.drop 16).take 8)
  tableOffset := ofBigEndian ((bytes.drop 24).take 8)

@[simp] theorem length_encode (t : Trailer) : t.encode.length = 32 := by simp [encode]

end Trailer

/-- The smallest of the widths 1, 2, 4 and 8 in which a count can be written. -/
def widthFor (count : Nat) : Nat :=
  if count < 256 then 1
  else if count < 65536 then 2
  else if count < 4294967296 then 4
  else 8

end PropertyList.Binary
