/-
  PropertyList.Proofs.Binary.Layout

  The frame of a binary list that was put together from records: its trailer and
  its table are read back, and each offset in the table leads to its record.
-/
import PropertyList.Binary.Reader
import PropertyList.Binary.Writer
import PropertyList.Proofs.Binary.Record

namespace PropertyList.Binary

/-! ## The trailer -/

theorem lt_pow_widthFor {count : Nat} (h : count < 0x10000000000000000) :
    count < 256 ^ widthFor count := by
  unfold widthFor
  by_cases h1 : count < 256
  · rw [if_pos h1]
    exact h1
  rw [if_neg h1]
  by_cases h2 : count < 65536
  · rw [if_pos h2]
    exact h2
  rw [if_neg h2]
  by_cases h4 : count < 4294967296
  · rw [if_pos h4]
    exact h4
  rw [if_neg h4]
  exact h

theorem widthFor_pos (count : Nat) : 0 < widthFor count := by
  unfold widthFor
  split_ifs <;> decide

theorem widthFor_le_eight (count : Nat) : widthFor count ≤ 8 := by
  unfold widthFor
  split_ifs <;> decide

/-- Every field of the trailer fits its width. -/
structure Trailer.Fits (t : Trailer) : Prop where
  offsetSize : t.offsetSize < 256
  refSize : t.refSize < 256
  objectCount : t.objectCount < 0x10000000000000000
  root : t.root < 0x10000000000000000
  tableOffset : t.tableOffset < 0x10000000000000000

theorem Trailer.decode_encode {t : Trailer} (h : t.Fits) : Trailer.decode t.encode = t := by
  have hlast (front : List UInt8) (width n : Nat) (hn : n < 256 ^ width) (back : List UInt8)
      (k : Nat) (hk : front.length = k) :
      ofBigEndian (((front ++ (bigEndian width n ++ back)).drop k).take width) = n := by
    rw [List.drop_left' hk, List.take_left' (length_bigEndian width n), ofBigEndian_bigEndian_of_lt hn]
  -- each field stands behind those that were written before it
  have hoffsetSize := hlast (bigEndian 6 0) 1 t.offsetSize h.offsetSize
    (bigEndian 1 t.refSize ++ (bigEndian 8 t.objectCount ++ (bigEndian 8 t.root ++
      bigEndian 8 t.tableOffset))) 6 (by simp)
  have hrefSize := hlast (bigEndian 6 0 ++ bigEndian 1 t.offsetSize) 1 t.refSize h.refSize
    (bigEndian 8 t.objectCount ++ (bigEndian 8 t.root ++ bigEndian 8 t.tableOffset)) 7 (by simp)
  have hobjectCount := hlast (bigEndian 6 0 ++ bigEndian 1 t.offsetSize ++ bigEndian 1 t.refSize) 8
    t.objectCount h.objectCount (bigEndian 8 t.root ++ bigEndian 8 t.tableOffset) 8 (by simp)
  have hroot := hlast (bigEndian 6 0 ++ bigEndian 1 t.offsetSize ++ bigEndian 1 t.refSize ++
    bigEndian 8 t.objectCount) 8 t.root h.root (bigEndian 8 t.tableOffset) 16 (by simp)
  have htableOffset := hlast (bigEndian 6 0 ++ bigEndian 1 t.offsetSize ++ bigEndian 1 t.refSize ++
    bigEndian 8 t.objectCount ++ bigEndian 8 t.root) 8 t.tableOffset h.tableOffset [] 24 (by simp)
  simp only [List.append_assoc, List.append_nil] at hoffsetSize hrefSize hobjectCount hroot htableOffset
  simp only [Trailer.decode, Trailer.encode, List.append_assoc, hoffsetSize, hrefSize, hobjectCount,
    hroot, htableOffset]

/-! ## Offsets -/

theorem length_offsetsFrom (start : Nat) (records : List (List UInt8)) :
    (offsetsFrom start records).length = records.length := by
  induction records generalizing start with
  | nil => rfl
  | cons p records ih => rw [offsetsFrom, List.length_cons, ih, List.length_cons]

/-- No offset lies behind the records. -/
theorem offsetsFrom_le {start : Nat} {records : List (List UInt8)} {o : Nat}
    (h : o ∈ offsetsFrom start records) : o ≤ start + records.flatten.length := by
  induction records generalizing start with
  | nil => cases h
  | cons p records ih =>
    rw [List.flatten_cons, List.length_append]
    rcases List.mem_cons.mp h with rfl | h
    · exact Nat.le_add_right _ _
    · have hle := ih h
      omega

/-- Each offset leads to its record. -/
theorem drop_offsetsFrom (front back : List UInt8) {b : List UInt8} {records : List (List UInt8)}
    {j : Nat} (h : records[j]? = some b) :
    ∃ o rest, (offsetsFrom front.length records)[j]? = some o ∧
      (front ++ records.flatten ++ back).drop o = b ++ rest := by
  induction records generalizing front j with
  | nil => cases h
  | cons p records ih =>
    cases j with
    | zero =>
      obtain rfl := Option.some.inj h
      refine ⟨front.length, records.flatten ++ back, rfl, ?_⟩
      rw [List.append_assoc, List.drop_left' rfl, List.flatten_cons, List.append_assoc]
    | succ j =>
      obtain ⟨o, rest, hget, hdrop⟩ := ih (front ++ p) h
      rw [List.length_append] at hget
      refine ⟨o, rest, hget, ?_⟩
      rw [← hdrop, List.flatten_cons, List.append_assoc front p]

/-! ## The whole list -/

section Assemble

variable {refSize : Nat} {records : List (List UInt8)}

/-- The table of offsets. -/
def tableOf (records : List (List UInt8)) : List UInt8 :=
  Record.encodeRefs (widthFor (header.length + records.flatten.length))
    (offsetsFrom header.length records)

/-- The trailer of a list with given records. -/
def trailerOf (refSize : Nat) (records : List (List UInt8)) : Trailer where
  offsetSize := widthFor (header.length + records.flatten.length)
  refSize := refSize
  objectCount := records.length
  root := 0
  tableOffset := header.length + records.flatten.length

theorem assemble_eq (refSize : Nat) (records : List (List UInt8)) :
    assemble refSize records =
      header ++ records.flatten ++ tableOf records ++ (trailerOf refSize records).encode := rfl

theorem hasHeader_assemble (refSize : Nat) (records : List (List UInt8)) :
    hasHeader (assemble refSize records) = true := by
  rw [assemble_eq, hasHeader, List.append_assoc, List.append_assoc, List.isPrefixOf_iff_prefix]
  exact List.prefix_append _ _

theorem length_assemble (refSize : Nat) (records : List (List UInt8)) :
    (assemble refSize records).length =
      header.length + records.flatten.length + (tableOf records).length + 32 := by
  rw [assemble_eq, List.length_append, List.length_append, List.length_append,
    Trailer.length_encode]

theorem length_le_length_tableOf (records : List (List UInt8)) :
    records.length ≤ (tableOf records).length := by
  have h := Record.length_le_length_encodeRefs
    (widthFor_pos (header.length + records.flatten.length)) (offsetsFrom header.length records)
  rwa [length_offsetsFrom] at h

theorem fits_trailerOf (hrefSize : refSize < 256)
    (hlen : (assemble refSize records).length < 0x10000000000000000) :
    (trailerOf refSize records).Fits := by
  have hcount := length_le_length_tableOf records
  have hlength := length_assemble refSize records
  constructor
  · exact Nat.lt_of_le_of_lt (widthFor_le_eight _) (by decide)
  · exact hrefSize
  · show records.length < _
    omega
  · show 0 < _
    decide
  · show header.length + records.flatten.length < _
    omega

/-- The trailer is found at the end. -/
theorem decode_drop_assemble (hrefSize : refSize < 256)
    (hlen : (assemble refSize records).length < 0x10000000000000000) :
    Trailer.decode ((assemble refSize records).drop ((assemble refSize records).length - 32)) =
      trailerOf refSize records := by
  have hstart : (assemble refSize records).length - 32 =
      (header ++ records.flatten ++ tableOf records).length := by
    rw [length_assemble, List.length_append, List.length_append]
    omega
  rw [hstart, assemble_eq, List.drop_left' rfl, Trailer.decode_encode (fits_trailerOf hrefSize hlen)]

/-- The table is found where the trailer says. -/
theorem takeNumbers?_assemble (hlen : (assemble refSize records).length < 0x10000000000000000) :
    Record.takeNumbers? (trailerOf refSize records).offsetSize (trailerOf refSize records).objectCount
      ((assemble refSize records).drop (trailerOf refSize records).tableOffset) =
      some (offsetsFrom header.length records, (trailerOf refSize records).encode) := by
  have hlength := length_assemble refSize records
  have hread := Record.takeNumbers?_encodeRefs (trailerOf refSize records).encode
    (widthFor_pos (header.length + records.flatten.length)) fun o ho =>
      Nat.lt_of_le_of_lt (offsetsFrom_le ho) (lt_pow_widthFor (by omega))
  rw [length_offsetsFrom] at hread
  rw [trailerOf, assemble_eq, List.append_assoc, List.drop_left' (List.length_append ..)]
  exact hread

/-- Reading what was assembled comes down to reading its objects, each of which is decoded from
    its own record. -/
theorem read_assemble (hrefSize : refSize < 256)
    (hlen : (assemble refSize records).length < 0x10000000000000000) :
    ∃ src : Source,
      (∀ j b, records[j]? = some b → ∃ rest, src.record? j = Record.decode? refSize (b ++ rest)) ∧
      read (assemble refSize records) =
        (readObject src readBudget (Array.replicate records.length none) 0).map fun nodes =>
          ⟨nodes.map fun x => x.getD (.scalar .null), 0⟩ := by
  have hlength := length_assemble refSize records
  have htrailer := decode_drop_assemble hrefSize hlen
  have htable := takeNumbers?_assemble hlen
  refine ⟨⟨assemble refSize records, refSize, (offsetsFrom header.length records).toArray⟩, ?_, ?_⟩
  -- a record starts at its offset, and is followed by all that was written after it
  · intro j b hb
    obtain ⟨o, rest, hget, hdrop⟩ := drop_offsetsFrom header
      (tableOf records ++ (trailerOf refSize records).encode) hb
    refine ⟨rest, ?_⟩
    rw [Source.record?, List.getElem?_toArray, hget, Option.bind_eq_bind, Option.bind_some,
      assemble_eq, List.append_assoc _ (tableOf records), hdrop]
  · have hlong : ¬ (assemble refSize records).length < 32 := by omega
    rw [read]
    simp only [htrailer]
    rw [if_neg hlong]
    simp only [trailerOf] at htable ⊢
    simp only [htable]
    rfl

end Assemble

end PropertyList.Binary
