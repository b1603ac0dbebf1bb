/-
  PropertyList.Proofs.Binary.Consistent

  Every binary list that is written is in good order, as other readers have to find it.
  Header, objects, table and trailer follow each other without a gap, all numbers stand
  in the smallest width that holds them, all references are those of objects, and equal
  scalars have been written once.
-/
import PropertyList.Proofs.Binary.Lookup
import PropertyList.Proofs.Binary.Rereading
import PropertyList.Proofs.Number.Comparison
import Mathlib.Order.Bounds.Defs

namespace PropertyList

/-! ## Equal scalars -/

namespace Scalar

/-- Equal scalars of one type.  A real that is no number equals nothing; null and UIDs are not
    compared. -/
def Equals : Scalar → Scalar → Prop
  | bool a, bool b => a = b
  | int m, int n => m = n
  | real x, real y => x.compare? y = some .eq
  | text s, text t => s = t
  | data b, data c => b = c
  | date t, date u => t = u
  | _, _ => False

end Scalar

namespace Binary

variable {g : Graph} {sortKeys : Bool} {objects : Numbering} {rs : List Record} {bytes : List UInt8}

/-- Equal scalars are one object. -/
theorem identity_eq_of_equals {i j : Nat} {s t : Scalar} (hi : g.node i = .scalar s)
    (hj : g.node j = .scalar t) (h : s.Equals t) : identity g i = identity g j := by
  rw [identity, identity, hi, hj]
  cases s <;> cases t <;> simp only [Scalar.Equals] at h
  case real.real x y =>
    have hnumber {z : Binary64} (hz : z.magnitude = 0) : z.isNaN = false := by
      rw [Binary64.isNaN, hz]
      rfl
    rcases Binary64.eq_or_zero_of_compare? h with rfl | ⟨hx, hy⟩
    · by_cases hnan : x.isNaN = true
      · rw [Binary64.compare?, hnan] at h
        cases h
      · simp only [if_neg hnan]
    · simp only [hnumber hx, hnumber hy, if_pos hx, if_pos hy, if_neg Bool.false_ne_true]
  all_goals rw [h]

/-! ## Widths -/

/-- The smallest of the widths of a binary list in which a number can be written. -/
def IsLeastWidth (n width : Nat) : Prop := IsLeast {w | w ∈ [1, 2, 4, 8] ∧ n < 256 ^ w} width

theorem isLeastWidth_widthFor {n : Nat} (h : n < 0x10000000000000000) :
    IsLeastWidth n (widthFor n) := by
  refine ⟨⟨?_, lt_pow_widthFor h⟩, ?_⟩
  · unfold widthFor
    split_ifs <;> decide
  · rintro w ⟨hw, hn⟩
    unfold widthFor
    simp only [List.mem_cons, List.not_mem_nil, or_false] at hw
    rcases hw with rfl | rfl | rfl | rfl <;> split_ifs <;> omega

/-! ## Offsets -/

section Offsets

variable {records : List (List UInt8)} {start o : Nat}

/-- Where no record is empty, all offsets lie in front of the end. -/
theorem offsetsFrom_lt (hne : ∀ b ∈ records, b ≠ []) (h : o ∈ offsetsFrom start records) :
    start ≤ o ∧ o < start + records.flatten.length := by
  induction records generalizing start with
  | nil => cases h
  | cons p records ih =>
    have hpos : 0 < p.length := List.length_pos_iff.mpr (hne p List.mem_cons_self)
    rw [List.flatten_cons, List.length_append]
    rcases List.mem_cons.mp h with rfl | h
    · omega
    · have hrest := ih (fun b hb => hne b (List.mem_cons_of_mem _ hb)) h
      omega

theorem pairwise_offsetsFrom (hne : ∀ b ∈ records, b ≠ []) :
    (offsetsFrom start records).Pairwise (· < ·) := by
  induction records generalizing start with
  | nil => exact .nil
  | cons p records ih =>
    have hpos : 0 < p.length := List.length_pos_iff.mpr (hne p List.mem_cons_self)
    have hrest : ∀ b ∈ records, b ≠ [] := fun b hb => hne b (List.mem_cons_of_mem _ hb)
    refine List.pairwise_cons.mpr ⟨fun q hq => ?_, ih hrest⟩
    have hlow := (offsetsFrom_lt hrest hq).1
    omega

/-- Each record ends where the next one starts, and the last one at the end. -/
theorem offsetsFrom_next {i : Nat} {b : List UInt8} (ho : (offsetsFrom start records)[i]? = some o)
    (hb : records[i]? = some b) :
    (offsetsFrom start records)[i + 1]?.getD (start + records.flatten.length) = o + b.length := by
  induction records generalizing start i with
  | nil => cases hb
  | cons p records ih =>
    rw [offsetsFrom, List.getElem?_cons_succ, List.flatten_cons, List.length_append]
    cases i with
    | zero =>
      obtain rfl := Option.some.inj hb
      obtain rfl := Option.some.inj ho
      cases records with
      | nil => rfl
      | cons q records => rfl
    | succ i =>
      rw [← ih ho hb, Nat.add_assoc]

end Offsets

/-! ## Lists in good order -/

/-- The references in a record. -/
def Record.refs : Record → List Nat
  | .scalar _ => []
  | .array items => items
  | .dict keys values => keys ++ values

/-- A binary list in good order, and the records that it holds.  All of this is read off the bytes,
    by what stands in the trailer and in the table. -/
structure Consistent (bytes : List UInt8) (rs : List Record) : Prop where
  header : header <+: bytes
  /-- Header, objects, table and trailer fill the list. -/
  length : (trailer bytes).tableOffset + (trailer bytes).objectCount * (trailer bytes).offsetSize +
    32 = bytes.length
  root : (trailer bytes).root = 0
  count : (trailer bytes).objectCount = rs.length
  offsetSize : IsLeastWidth (trailer bytes).tableOffset (trailer bytes).offsetSize
  refSize : IsLeastWidth (trailer bytes).objectCount (trailer bytes).refSize
  first : offset? bytes 0 = some 8
  increasing : ∀ i j o p, i < j → offset? bytes i = some o → offset? bytes j = some p → o < p
  below : ∀ i o, offset? bytes i = some o → o < (trailer bytes).tableOffset
  /-- A record starts at its offset and ends at the next one, or where the table starts. -/
  filled : ∀ i r, rs[i]? = some r → ∃ o b, offset? bytes i = some o ∧
    r.encode (trailer bytes).refSize = .ok b ∧ b <+: bytes.drop o ∧
    (offset? bytes (i + 1)).getD (trailer bytes).tableOffset = o + b.length
  /-- What is read of a record is what was written, but for what a date loses. -/
  decoded : ∀ i r, rs[i]? = some r → recordAt? bytes i = r.reread?
  refs : ∀ r ∈ rs, ∀ p ∈ r.refs, p < (trailer bytes).objectCount

theorem Recorded.refs_lt {i : Nat} {r : Record} (h : Recorded g sortKeys objects i r) :
    ∀ p ∈ r.refs, p < objects.length := by
  cases h with
  | scalar => exact List.forall_mem_nil _
  | array hnode hparts => exact List.forall_mem_map.mpr fun p hp => refOf_lt (hparts p hp)
  | dict hnode hordered hparts =>
    refine List.forall_mem_append.mpr ⟨List.forall_mem_map.mpr fun e he => ?_,
      List.forall_mem_map.mpr fun e he => ?_⟩
    · exact refOf_lt (hparts e he).1
    · exact refOf_lt (hparts e he).2

/-- Bytes that are read back whatever follows them are not empty. -/
theorem ne_nil_of_encode {refSize : Nat} {r : Record} {b : List UInt8} (hsize : 0 < refSize)
    (hr : r.Fits refSize) (h : r.encode refSize = .ok b) : b ≠ [] := by
  rintro rfl
  have hnone : Record.decode? refSize ([] ++ []) = r.reread? :=
    Record.decode?_encode hsize hr h (by decide)
  have hnull : Record.decode? refSize ([] ++ [0x00]) = r.reread? :=
    Record.decode?_encode hsize hr h (by decide)
  cases hnone.trans hnull.symm

theorem exists_getElem?_of_forall₂ {α β : Type} {R : α → β → Prop} {as : List α} {bs : List β}
    (h : List.Forall₂ R as bs) {i : Nat} {a : α} (ha : as[i]? = some a) :
    ∃ b, bs[i]? = some b ∧ R a b := by
  induction h generalizing i with
  | nil => cases ha
  | cons hab _ ih =>
    cases i with
    | zero =>
      obtain rfl := Option.some.inj ha
      exact ⟨_, rfl, hab⟩
    | succ i => exact ih ha

section Assemble

variable {bs : List (List UInt8)} {refSize : Nat}

/-- What stands behind the offset of a record starts with its bytes. -/
theorem exists_place (hbs : List.Forall₂ (fun r b => r.encode refSize = .ok b) rs bs) {i : Nat}
    {r : Record} (hr : rs[i]? = some r) :
    ∃ o b rest, (offsetsFrom header.length bs)[i]? = some o ∧ bs[i]? = some b ∧
      r.encode refSize = .ok b ∧ (assemble refSize bs).drop o = b ++ rest := by
  obtain ⟨b, hb, hencode⟩ := exists_getElem?_of_forall₂ hbs hr
  obtain ⟨o, rest, ho, hdrop⟩ :=
    drop_offsetsFrom header (tableOf bs ++ (trailerOf refSize bs).encode) hb
  refine ⟨o, b, rest, ho, hb, hencode, ?_⟩
  rw [assemble_eq, List.append_assoc _ (tableOf bs), hdrop]

/-- Records with references among themselves make a list in good order. -/
theorem consistent_assemble (hpos : 0 < bs.length)
    (hbs : List.Forall₂ (fun r b => r.encode (widthFor bs.length) = .ok b) rs bs)
    (hlen : (assemble (widthFor bs.length) bs).length < 0x8000000000000000)
    (hfits : ∀ r ∈ rs, r.Fits (widthFor bs.length))
    (hrefs : ∀ r ∈ rs, ∀ p ∈ r.refs, p < bs.length) :
    Consistent (assemble (widthFor bs.length) bs) rs := by
  have hlength := length_assemble (widthFor bs.length) bs
  have htable := length_le_length_tableOf bs
  have hwidth : widthFor bs.length < 256 := Nat.lt_of_le_of_lt (widthFor_le_eight _) (by decide)
  have htrailer := @trailer_assemble _ bs hwidth (by omega)
  have hoffset := @offset?_assemble _ bs hwidth (by omega)
  have hne : ∀ b ∈ bs, b ≠ [] := by
    intro b hb
    obtain ⟨r, hr, hencode⟩ := exists_of_forall₂_left hbs.flip hb
    exact ne_nil_of_encode (widthFor_pos _) (hfits r hr) hencode
  constructor
  case header => exact List.isPrefixOf_iff_prefix.mp (hasHeader_assemble _ _)
  case length =>
    rw [htrailer, hlength, tableOf, Record.length_encodeRefs, length_offsetsFrom, Nat.mul_comm]
    rfl
  case root => rw [htrailer]; rfl
  case count => rw [htrailer, hbs.length_eq]; rfl
  case offsetSize =>
    rw [htrailer]
    show IsLeastWidth (header.length + bs.flatten.length) _
    exact isLeastWidth_widthFor (by omega)
  case refSize =>
    rw [htrailer]
    show IsLeastWidth bs.length _
    exact isLeastWidth_widthFor (by omega)
  case first =>
    rw [hoffset]
    cases bs with
    | nil => exact absurd hpos (Nat.lt_irrefl 0)
    | cons b bs => rfl
  case increasing =>
    intro i j o p hij ho hp
    rw [hoffset] at ho hp
    obtain ⟨hi, rfl⟩ := List.getElem?_eq_some_iff.mp ho
    obtain ⟨hj, rfl⟩ := List.getElem?_eq_some_iff.mp hp
    exact List.pairwise_iff_getElem.mp (pairwise_offsetsFrom hne) i j hi hj hij
  case below =>
    intro i o ho
    rw [hoffset] at ho
    rw [htrailer]
    exact (offsetsFrom_lt hne (List.mem_of_getElem? ho)).2
  case filled =>
    intro i r hr
    obtain ⟨o, b, rest, ho, hb, hencode, hdrop⟩ := exists_place hbs hr
    rw [htrailer, hoffset, hoffset]
    exact ⟨o, b, ho, hencode, hdrop ▸ List.prefix_append b rest, offsetsFrom_next ho hb⟩
  case decoded =>
    intro i r hr
    obtain ⟨o, b, rest, ho, hb, hencode, hdrop⟩ := exists_place hbs hr
    have hshort := length_le_length_flatten (List.mem_of_getElem? hb)
    rw [recordAt?, hoffset, ho, htrailer, Option.bind_eq_bind, Option.bind_some, hdrop]
    exact Record.decode?_encode (widthFor_pos _) (hfits r (List.mem_of_getElem? hr)) hencode
      (by omega)
  case refs => rw [htrailer]; exact hrefs

end Assemble

/-- The record at a number, with its object and its bytes. -/
theorem Records.exists_at (h : Records g sortKeys objects rs) {i : Nat} {r : Record}
    (hr : rs[i]? = some r) :
    ∃ o, objects.reverse[i]? = some o ∧ Recorded g sortKeys objects o.node r := by
  obtain ⟨o, ho, -, hrecorded⟩ := exists_getElem?_of_forall₂ h.records.flip hr
  exact ⟨o, ho, hrecorded⟩

/-- Records of equal scalars are one record. -/
theorem Records.eq_of_equals (h : Records g sortKeys objects rs) {i j : Nat} {s t : Scalar}
    (hi : rs[i]? = some (.scalar s)) (hj : rs[j]? = some (.scalar t)) (hst : s.Equals t) :
    i = j := by
  obtain ⟨o, ho, hs⟩ := h.exists_at hi
  obtain ⟨p, hp, ht⟩ := h.exists_at hj
  -- their objects have one identity, and each identity is numbered once
  have hid : o.identity = p.identity := by
    rw [h.own o (List.mem_reverse.mp (List.mem_of_getElem? ho)),
      h.own p (List.mem_reverse.mp (List.mem_of_getElem? hp))]
    cases hs with
    | scalar hnode =>
      cases ht with
      | scalar hnode' => exact identity_eq_of_equals hnode hnode' hst
  have hnumber := Numbering.number?_of_getElem? h.nodup ho
  rw [hid, Numbering.number?_of_getElem? h.nodup hp] at hnumber
  exact (Option.some.inj hnumber).symm

/-- A binary list that is written is in good order. -/
theorem Written.consistent (h : Written g sortKeys objects rs bytes)
    (hlen : bytes.length < 0x8000000000000000) : Consistent bytes rs := by
  obtain ⟨bs, hbs, rfl⟩ := h.encoded
  have hroot := Numbering.number?_lt h.root
  have hlength := length_assemble (widthFor objects.length) bs
  have htable := length_le_length_tableOf bs
  have hcount : bs.length = objects.length := by rw [← hbs.length_eq, h.length_eq]
  have hfit : objects.length ≤ 256 ^ widthFor objects.length :=
    Nat.le_of_lt (lt_pow_widthFor (by omega))
  have hrecorded {r : Record} (hr : r ∈ rs) : ∃ i, Recorded g sortKeys objects i r := by
    obtain ⟨o, -, -, hrecorded⟩ := exists_of_forall₂_left h.records.flip hr
    exact ⟨o.node, hrecorded⟩
  rw [← hcount] at hroot hbs hlen ⊢
  refine consistent_assemble hroot hbs hlen (fun r hr => ?_) fun r hr p hp => ?_
  · obtain ⟨i, hi⟩ := hrecorded hr
    exact hi.fits (hcount ▸ hfit)
  · obtain ⟨i, hi⟩ := hrecorded hr
    exact hcount ▸ hi.refs_lt p hp

/-- A scalar that is found in the bytes was written as it is, unless it is a date. -/
theorem Consistent.getElem?_of_recordAt? (h : Consistent bytes rs) {i : Nat} {s : Scalar}
    (hs : recordAt? bytes i = some (.scalar s)) (hdate : ∀ t, s ≠ .date t) :
    rs[i]? = some (.scalar s) := by
  have hlt : i < rs.length := by
    obtain ⟨o, ho, -⟩ := Option.bind_eq_some_iff.mp hs
    unfold offset? at ho
    dsimp only at ho
    split at ho
    · next hlt => exact h.count ▸ hlt
    · cases ho
  -- what stands at the place is what its record is decoded to
  rw [h.decoded i rs[i] (List.getElem?_eq_getElem hlt)] at hs
  rw [List.getElem?_eq_getElem hlt]
  cases hr : rs[i] with
  | scalar s' =>
    rw [hr] at hs
    obtain ⟨t, ht, hts⟩ := Option.map_eq_some_iff.mp hs
    obtain rfl := Record.scalar.inj hts
    cases s' with
    -- a date can come back as another one, but as nothing else
    | date d =>
      obtain ⟨d', -, hd'⟩ := Option.map_eq_some_iff.mp ht
      exact absurd hd'.symm (hdate d')
    | _ =>
      rw [Option.some.inj ht]
  | array items =>
    rw [hr] at hs
    cases hs
  | dict keys values =>
    rw [hr] at hs
    cases hs

end Binary

namespace Encoding

/-- Every binary list that is written is in good order.  Its records are scalars of the document,
    and containers of records; no two of them are equal scalars of one type.  So no two equal
    scalars are found in the bytes, but for dates, which are told apart before they are written as
    numbers of seconds. -/
theorem binary_write_consistent {options : WriteOptions} {source : Selector} {g : Graph}
    {bytes : List UInt8} (hwrite : binary.write options ⟨source, some g⟩ = .ok bytes)
    (hlen : bytes.length < 0x8000000000000000) :
    ∃ rs, Binary.Consistent bytes rs ∧
      (∀ s, Binary.Record.scalar s ∈ rs → ∃ i, g.Reaches i ∧ g.node i = .scalar s) ∧
      (∀ (i j : Nat) (s t : Scalar), rs[i]? = some (.scalar s) → rs[j]? = some (.scalar t) →
        s.Equals t → i = j) ∧
      ∀ i j s t, Binary.recordAt? bytes i = some (.scalar s) →
        Binary.recordAt? bytes j = some (.scalar t) → s.Equals t → (∀ d, s ≠ .date d) → i = j := by
  obtain ⟨objects, rs, hwritten⟩ := Binary.exists_written (eq_ok_of_mapError hwrite)
  have hconsistent := hwritten.consistent hlen
  refine ⟨rs, hconsistent, fun s hs => hwritten.exists_of_mem hs,
    fun i j s t hi hj => hwritten.eq_of_equals hi hj, ?_⟩
  intro i j s t hi hj hst hdate
  have hdate' : ∀ d, t ≠ .date d := by
    rintro d rfl
    cases s with
    | date d' => exact hdate d' rfl
    | _ => exact hst
  exact hwritten.eq_of_equals (hconsistent.getElem?_of_recordAt? hi hdate)
    (hconsistent.getElem?_of_recordAt? hj hdate') hst

/-- A dictionary with one list under two keys; the list holds a text that is also a key. -/
theorem binary_write_consistent_shared :
    ∃ bytes rs, binary.write {} ⟨.only .binary, some ⟨#[.dict [(1, 3), (2, 3)],
        .scalar (.text (Text.ofString "a")), .scalar (.text (Text.ofString "b")), .array [4, 5],
        .scalar (.text (Text.ofString "a")), .scalar (.real (.ofMagnitude true 0))], 0⟩⟩ =
          .ok bytes ∧ bytes.length = 66 ∧ Binary.Consistent bytes rs := by
  let bytes : List UInt8 := Binary.header ++ [0xD2, 1, 2, 3, 3] ++ [0x51, 0x61] ++ [0x51, 0x62] ++
    [0xA2, 1, 4] ++ [0x23, 0x80, 0, 0, 0, 0, 0, 0, 0] ++ [8, 13, 15, 17, 20] ++
    [0, 0, 0, 0, 0, 0, 1, 1, 0, 0, 0, 0, 0, 0, 0, 5, 0, 0, 0, 0, 0, 0, 0, 0,
      0, 0, 0, 0, 0, 0, 0, 29]
  have hlength : bytes.length = 66 := by decide
  have hwrite : binary.write {} ⟨.only .binary, some ⟨#[.dict [(1, 3), (2, 3)],
      .scalar (.text (Text.ofString "a")), .scalar (.text (Text.ofString "b")), .array [4, 5],
      .scalar (.text (Text.ofString "a")), .scalar (.real (.ofMagnitude true 0))], 0⟩⟩ =
        .ok bytes := binary_write_of_ok (by decide +kernel)
  obtain ⟨rs, hconsistent, -⟩ := binary_write_consistent hwrite (by omega)
  exact ⟨bytes, rs, hwrite, hlength, hconsistent⟩

/-- Two dates that are a microsecond apart, so late that both are nearest to one real number of
    seconds, are written as two objects with the same bytes. -/
theorem binary_write_equal_dates :
    ∃ bytes t, binary.write {} ⟨.auto, some ⟨#[.array [1, 2],
        .scalar (.date ⟨9999, 1, 1, 0, 0, 0, 1⟩), .scalar (.date ⟨9999, 1, 1, 0, 0, 0, 2⟩)], 0⟩⟩ =
          .ok bytes ∧ bytes.length < 0x8000000000000000 ∧
      Binary.recordAt? bytes 1 = some (.scalar (.date t)) ∧
      Binary.recordAt? bytes 2 = some (.scalar (.date t)) := by
  let bytes : List UInt8 := Binary.header ++ [0xA2, 1, 2] ++
    [0x33, 0x42, 0x4D, 0x61, 0xE1, 0xA2, 0xC0, 0, 0] ++
    [0x33, 0x42, 0x4D, 0x61, 0xE1, 0xA2, 0xC0, 0, 0] ++ [8, 11, 20] ++
    [0, 0, 0, 0, 0, 0, 1, 1, 0, 0, 0, 0, 0, 0, 0, 3, 0, 0, 0, 0, 0, 0, 0, 0,
      0, 0, 0, 0, 0, 0, 0, 29]
  refine ⟨bytes, ⟨9999, 1, 1, 0, 0, 0, 0⟩, binary_write_of_ok ?_, ?_, ?_, ?_⟩
  all_goals decide +kernel

end Encoding

end PropertyList
