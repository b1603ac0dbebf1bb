/-
  PropertyList.Proofs.Binary.Lookup

  Objects looked up straight in the bytes of a binary list.  The trailer is taken from
  the end, and each offset is read from its own place in the table.
-/
import PropertyList.Proofs.Binary.Layout

namespace PropertyList.Binary

/-! ## Looking up -/

/-- What the last 32 bytes say. -/
def trailer (bytes : List UInt8) : Trailer := Trailer.decode (bytes.drop (bytes.length - 32))

/-- Where an object starts, looked up in the table of offsets. -/
def offset? (bytes : List UInt8) (ref : Nat) : Option Nat :=
  let t := trailer bytes
  if ref < t.objectCount then
    some (ofBigEndian ((bytes.drop (t.tableOffset + ref * t.offsetSize)).take t.offsetSize))
  else none

/-- The record of an object. -/
def recordAt? (bytes : List UInt8) (ref : Nat) : Option Record := do
  let offset ← offset? bytes ref
  Record.decode? (trailer bytes).refSize (bytes.drop offset)

/-! ## The table of offsets -/

theorem getElem?_pieces {size count k : Nat} {s : List UInt8} (hk : k < count) :
    (Record.pieces size count s)[k]? = some ((s.drop (k * size)).take size) := by
  induction count generalizing s k with
  | zero => exact absurd hk (Nat.not_lt_zero k)
  | succ count ih =>
    cases k with
    | zero => simp [Record.pieces]
    | succ k =>
      rw [Record.pieces, List.getElem?_cons_succ, ih (Nat.lt_of_succ_lt_succ hk), List.drop_drop]
      congr 3
      rw [Nat.succ_mul, Nat.add_comm]

theorem length_pieces (size count : Nat) (s : List UInt8) :
    (Record.pieces size count s).length = count := by
  induction count generalizing s with
  | zero => rfl
  | succ count ih => rw [Record.pieces, List.length_cons, ih]

/-- Of numbers that were taken from bytes, each is what stands at its place. -/
theorem getElem?_of_takeNumbers? {width count k : Nat} {s rest : List UInt8} {ns : List Nat}
    (h : Record.takeNumbers? width count s = some (ns, rest)) :
    ns[k]? = if k < count then some (ofBigEndian ((s.drop (k * width)).take width)) else none := by
  unfold Record.takeNumbers? at h
  split at h
  · cases h
  obtain ⟨⟨front, back⟩, htake, h⟩ := Option.map_eq_some_iff.mp h
  obtain ⟨rfl, rfl⟩ := Prod.mk.inj h
  unfold Record.takeExact? at htake
  dsimp only at htake
  split at htake
  · obtain ⟨rfl, rfl⟩ := Prod.mk.inj (Option.some.inj htake)
    by_cases hk : k < count
    · -- the piece lies inside the bytes that were taken
      have hinside : width ≤ width * count - k * width := by
        have hle : (k + 1) * width ≤ count * width := Nat.mul_le_mul_right width hk
        rw [Nat.succ_mul] at hle
        rw [Nat.mul_comm width count]
        omega
      rw [if_pos hk, List.getElem?_map, getElem?_pieces hk, List.drop_take, List.take_take,
        Nat.min_eq_left hinside]
      rfl
    · rw [if_neg hk, List.getElem?_eq_none_iff, List.length_map, length_pieces]
      exact Nat.le_of_not_lt hk
  · cases htake

/-- If the table can be read as a whole, it holds the offsets that are looked up. -/
theorem offset?_eq_getElem? {bytes rest : List UInt8} {offsets : List Nat} {ref : Nat}
    (h : Record.takeNumbers? (trailer bytes).offsetSize (trailer bytes).objectCount
      (bytes.drop (trailer bytes).tableOffset) = some (offsets, rest)) :
    offset? bytes ref = offsets[ref]? := by
  rw [offset?, getElem?_of_takeNumbers? h]
  simp only [List.drop_drop]

/-! ## Lists that were put together -/

section Assemble

variable {refSize : Nat} {records : List (List UInt8)}

theorem trailer_assemble (hrefSize : refSize < 256)
    (hlen : (assemble refSize records).length < 0x10000000000000000) :
    trailer (assemble refSize records) = trailerOf refSize records :=
  decode_drop_assemble hrefSize hlen

theorem offset?_assemble (hrefSize : refSize < 256)
    (hlen : (assemble refSize records).length < 0x10000000000000000) (i : Nat) :
    offset? (assemble refSize records) i = (offsetsFrom header.length records)[i]? := by
  have hread := @takeNumbers?_assemble refSize records hlen
  rw [← trailer_assemble hrefSize hlen] at hread
  exact offset?_eq_getElem? hread

end Assemble

end PropertyList.Binary
