/-
  PropertyList.Proofs.Binary.Record

  Every record that is written is read back as it was, whatever follows it, but for
  dates: a date is written as a number of seconds, and `Scalar.reread?` says what is
  read of it.  A date that falls on a whole second comes back as it was.
-/
import PropertyList.Binary.Record
import PropertyList.Proofs.Value
import PropertyList.Proofs.DateTime
import PropertyList.Proofs.Binary.BigEndian

namespace PropertyList

/-- The scalars that a binary list holds without loss. -/
def Scalar.IsStorable : Scalar → Prop
  | .int n => -0x8000000000000000 ≤ n ∧ n < 0x10000000000000000
  | .text t => t.IsEncodable
  | .date t => t.IsValid ∧ t.microsecond = 0
  | .uid n => n < 0x10000000000000000
  | _ => True

/-- The scalar that is read where a scalar was written.  The seconds of a date may name another
    date, or lie behind the last one. -/
def Scalar.reread? : Scalar → Option Scalar
  | .date t => (DateTime.ofSeconds? t.secondsSinceEpoch).map .date
  | s => some s

/-- What is left of a scalar; one that cannot be read counts as itself. -/
def Scalar.restored (s : Scalar) : Scalar := s.reread?.getD s

@[simp] theorem Scalar.restored_text (t : Text) : (Scalar.text t).restored = .text t := rfl

theorem Scalar.restored_of_reread? {s t : Scalar} (h : s.reread? = some t) : s.restored = t := by
  rw [restored, h, Option.getD_some]

/-- Only a date can come back as something else. -/
theorem Scalar.reread?_of_dates {s : Scalar}
    (h : ∀ t, s = .date t → DateTime.ofSeconds? t.secondsSinceEpoch = some t) :
    s.reread? = some s := by
  cases s with
  | date t =>
    rw [reread?, h t rfl]
    rfl
  | _ => rfl

theorem Scalar.reread?_of_isStorable {s : Scalar} (h : s.IsStorable) : s.reread? = some s := by
  refine reread?_of_dates ?_
  rintro t rfl
  exact DateTime.ofSeconds?_secondsSinceEpoch h.1 h.2

/-- Only a date can fail to be read. -/
theorem Scalar.exists_date_of_reread? {s : Scalar} (h : s.reread? = none) :
    ∃ t, s = .date t ∧ DateTime.ofSeconds? t.secondsSinceEpoch = none := by
  cases s with
  | date t => exact ⟨t, rfl, Option.map_eq_none_iff.mp h⟩
  | _ => cases h

namespace Binary.Record

variable {refSize : Nat} {bytes rest : List UInt8}

/-! ## Pieces -/

theorem takeExact?_append {n : Nat} (h : bytes.length = n) :
    takeExact? n (bytes ++ rest) = some (bytes, rest) := by
  subst h
  simp [takeExact?]

theorem takeExact?_bigEndian (width n : Nat) :
    takeExact? width (bigEndian width n ++ rest) = some (bigEndian width n, rest) :=
  takeExact?_append (length_bigEndian width n)

theorem length_encodeRefs (refs : List Nat) :
    (encodeRefs refSize refs).length = refSize * refs.length := by
  induction refs with
  | nil => simp [encodeRefs]
  | cons r refs ih =>
    rw [encodeRefs, List.flatMap_cons, List.length_append, length_bigEndian, ← encodeRefs, ih,
      List.length_cons, Nat.mul_succ, Nat.add_comm]

theorem pieces_encodeRefs (refs : List Nat) :
    pieces refSize refs.length (encodeRefs refSize refs) = refs.map (bigEndian refSize) := by
  induction refs with
  | nil => rfl
  | cons r refs ih =>
    rw [encodeRefs, List.flatMap_cons, ← encodeRefs, List.length_cons, pieces, List.map_cons]
    rw [List.take_left' (length_bigEndian refSize r), List.drop_left' (length_bigEndian refSize r), ih]

/-- References are read back from their bytes. -/
theorem takeNumbers?_encodeRefs {refs : List Nat} (rest : List UInt8) (hsize : 0 < refSize)
    (hrefs : ∀ r ∈ refs, r < 256 ^ refSize) :
    takeNumbers? refSize refs.length (encodeRefs refSize refs ++ rest) = some (refs, rest) := by
  have hvalues : (refs.map (bigEndian refSize)).map ofBigEndian = refs := by
    rw [List.map_map]
    exact (List.map_congr_left fun r hr => ofBigEndian_bigEndian_of_lt (hrefs r hr)).trans
      (List.map_id' refs)
  rw [takeNumbers?, if_neg hsize.ne', takeExact?_append (length_encodeRefs refs), Option.map_some]
  show some ((pieces refSize refs.length (encodeRefs refSize refs)).map ofBigEndian, rest) = _
  rw [pieces_encodeRefs, hvalues]

/-! ## Sizes -/

theorem decode?_cons (b : UInt8) (s : List UInt8) :
    decode? refSize (b :: s) = decodeBody? refSize (b.toNat / 16) (b.toNat % 16) s := rfl

theorem decode?_marker (refSize : Nat) {high low : Nat} (hhigh : high < 16) (hlow : low < 16) (s : List UInt8) :
    decode? refSize (UInt8.ofNat (16 * high + low) :: s) = decodeBody? refSize high low s := by
  have hbyte : (UInt8.ofNat (16 * high + low)).toNat = 16 * high + low := by
    rw [UInt8.toNat_ofNat']
    omega
  have hdiv : (16 * high + low) / 16 = high := by omega
  have hmod : (16 * high + low) % 16 = low := by omega
  rw [decode?_cons, hbyte, hdiv, hmod]

/-- A size behind a marker is read back, in each of its widths. -/
theorem takeSize?_long {k size : Nat} (hk : k < 4) (hsize : size < 256 ^ (1 <<< k)) :
    takeSize? 15 (UInt8.ofNat (0x10 + k) :: bigEndian (1 <<< k) size ++ rest) = some (size, rest) := by
  have hbyte : (UInt8.ofNat (0x10 + k)).toNat % 4 = k := by
    rw [UInt8.toNat_ofNat']
    omega
  show (takeExact? (1 <<< ((UInt8.ofNat (0x10 + k)).toNat % 4)) (bigEndian (1 <<< k) size ++ rest)).map
    (fun p => (ofBigEndian p.1, p.2)) = _
  rw [hbyte, takeExact?_bigEndian, Option.map_some, ofBigEndian_bigEndian_of_lt hsize]

/-- What is written with a size is read as a marker with that size. -/
theorem decode?_encodeSize (refSize : Nat) (rest : List UInt8) {high size : Nat} (hhigh : high < 16)
    (hsize : size < 0x10000000000000000) :
    ∃ low s, decode? refSize (encodeSize (16 * high) size ++ rest) = decodeBody? refSize high low s ∧
      takeSize? low s = some (size, rest) := by
  unfold encodeSize
  -- a size below 15 fits the marker, and a longer one gets a width of its own
  by_cases hshort : size < 15
  · rw [if_pos hshort]
    refine ⟨size, rest, decode?_marker refSize hhigh (by omega) rest, ?_⟩
    unfold takeSize?
    rw [if_neg (by omega)]
  · rw [if_neg hshort]
    refine ⟨15, _, decode?_marker refSize hhigh (by decide) _, ?_⟩
    by_cases h1 : size < 256
    · rw [if_pos h1]
      exact takeSize?_long (k := 0) (by decide) h1
    · rw [if_neg h1]
      by_cases h2 : size < 65536
      · rw [if_pos h2]
        exact takeSize?_long (k := 1) (by decide) h2
      · rw [if_neg h2]
        by_cases h4 : size < 4294967296
        · rw [if_pos h4]
          exact takeSize?_long (k := 2) (by decide) h4
        · rw [if_neg h4]
          exact takeSize?_long (k := 3) (by decide) hsize

/-! ## Scalars -/

/-- Integers of up to four bytes have no sign. -/
theorem decode?_unsigned {k m : Nat} (hk : k < 3) (hm : m < 256 ^ (1 <<< k)) :
    decode? refSize (UInt8.ofNat (0x10 + k) :: bigEndian (1 <<< k) m ++ rest) =
      some (.scalar (.int m)) := by
  have hlow : k < 16 := by omega
  have hmarker := decode?_marker refSize (show 1 < 16 by decide) hlow (bigEndian (1 <<< k) m ++ rest)
  have hbody (s : List UInt8) : decodeBody? refSize 1 k s = some (.scalar (.int
      (if 3 ≤ k then ofSignedBigEndian (s.take (1 <<< k))
        else (ofBigEndian (s.take (1 <<< k)) : Int)))) := rfl
  rw [List.cons_append]
  refine hmarker.trans ?_
  rw [hbody, if_neg (by omega), List.take_left' (length_bigEndian _ m), ofBigEndian_bigEndian_of_lt hm]

/-- Integers from eight bytes on have one. -/
theorem decode?_signed {k m : Nat} (hk : 3 ≤ k) (hk' : k < 16) :
    decode? refSize (UInt8.ofNat (0x10 + k) :: bigEndian (1 <<< k) m ++ rest) =
      some (.scalar (.int (ofSignedBigEndian (bigEndian (1 <<< k) m)))) := by
  have hmarker := decode?_marker refSize (show 1 < 16 by decide) hk' (bigEndian (1 <<< k) m ++ rest)
  have hbody (s : List UInt8) : decodeBody? refSize 1 k s = some (.scalar (.int
      (if 3 ≤ k then ofSignedBigEndian (s.take (1 <<< k))
        else (ofBigEndian (s.take (1 <<< k)) : Int)))) := rfl
  rw [List.cons_append]
  refine hmarker.trans ?_
  rw [hbody, if_pos hk, List.take_left' (length_bigEndian _ m)]

theorem decode?_encodeInt {n : Int} (hlow : -0x8000000000000000 ≤ n) (hhigh : n < 0x10000000000000000)
    (h : encodeInt n = .ok bytes) : decode? refSize (bytes ++ rest) = some (.scalar (.int n)) := by
  unfold encodeInt at h
  -- negative numbers always take eight bytes
  by_cases hneg : n < 0
  · rw [if_pos hneg, if_pos hlow] at h
    obtain rfl := Except.ok.inj h
    refine (decode?_signed (k := 3) (by decide) (by decide)).trans ?_
    show some (scalar (.int (ofSignedBigEndian (bigEndian 8 _)))) = _
    rw [ofSignedBigEndian_bigEndian_eight (by omega), if_pos (by omega)]
    congr 3
    omega
  · obtain ⟨m, rfl⟩ := Int.eq_ofNat_of_zero_le (not_lt.mp hneg)
    rw [if_neg hneg] at h
    simp only [Int.toNat_natCast] at h
    by_cases h1 : m < 256
    · rw [if_pos h1] at h
      obtain rfl := Except.ok.inj h
      exact decode?_unsigned (k := 0) (by decide) h1
    rw [if_neg h1] at h
    by_cases h2 : m < 65536
    · rw [if_pos h2] at h
      obtain rfl := Except.ok.inj h
      exact decode?_unsigned (k := 1) (by decide) h2
    rw [if_neg h2] at h
    by_cases h4 : m < 4294967296
    · rw [if_pos h4] at h
      obtain rfl := Except.ok.inj h
      exact decode?_unsigned (k := 2) (by decide) h4
    rw [if_neg h4] at h
    -- from here on the form has a sign, which is not set
    by_cases h8 : m < 0x8000000000000000
    · rw [if_pos h8] at h
      obtain rfl := Except.ok.inj h
      refine (decode?_signed (k := 3) (by decide) (by decide)).trans ?_
      show some (scalar (.int (ofSignedBigEndian (bigEndian 8 m)))) = _
      rw [ofSignedBigEndian_bigEndian_eight (by omega), if_neg (by omega)]
    · rw [if_neg h8, if_pos (by omega)] at h
      obtain rfl := Except.ok.inj h
      refine (decode?_signed (k := 4) (by decide) (by decide)).trans ?_
      show some (scalar (.int (ofSignedBigEndian (bigEndian 16 m)))) = _
      rw [ofSignedBigEndian_bigEndian_sixteen (by omega)]

/-- A UID in a given width is read back. -/
theorem decode?_uid {width n : Nat} (hwidth : width < 16) (hlt : n < 256 ^ (width + 1))
    (hn : n < 0x10000000000000000) :
    decode? refSize (UInt8.ofNat (0x80 + width) :: bigEndian (width + 1) n ++ rest) =
      some (.scalar (.uid n)) := by
  have hmarker := decode?_marker refSize (show 8 < 16 by decide) hwidth
    (bigEndian (width + 1) n ++ rest)
  rw [List.cons_append]
  refine hmarker.trans ?_
  have hbody (s : List UInt8) : decodeBody? refSize 8 width s =
      if ofBigEndian (s.take (width + 1)) < 0x10000000000000000 then
        some (.scalar (.uid (ofBigEndian (s.take (width + 1)))))
      else none := rfl
  rw [hbody, List.take_left' (length_bigEndian (width + 1) n), ofBigEndian_bigEndian_of_lt hlt,
    if_pos hn]

theorem decode?_encodeUid {n : Nat} (hn : n < 0x10000000000000000) (h : encodeUid n = .ok bytes) :
    decode? refSize (bytes ++ rest) = some (.scalar (.uid n)) := by
  unfold encodeUid at h
  -- the marker counts the bytes of the number less one
  by_cases h1 : n < 256
  · rw [if_pos h1] at h
    obtain rfl := Except.ok.inj h
    exact decode?_uid (show 0 < 16 by decide) h1 hn
  rw [if_neg h1] at h
  by_cases h2 : n < 65536
  · rw [if_pos h2] at h
    obtain rfl := Except.ok.inj h
    exact decode?_uid (show 1 < 16 by decide) h2 hn
  rw [if_neg h2] at h
  by_cases h4 : n < 4294967296
  · rw [if_pos h4] at h
    obtain rfl := Except.ok.inj h
    exact decode?_uid (show 3 < 16 by decide) h4 hn
  rw [if_neg h4, if_pos hn] at h
  obtain rfl := Except.ok.inj h
  exact decode?_uid (show 7 < 16 by decide) hn hn

theorem asciiText?_of_ascii {t : Text} (h : t.all CodePoint.isAscii = true) :
    asciiText? (t.map fun c => UInt8.ofNat c.toNat) = some t := by
  rw [asciiText?, List.mapM_map]
  induction t with
  | nil => rfl
  | cons c t ih =>
    rw [List.all_cons, Bool.and_eq_true] at h
    have hlt : c.toNat < 128 := of_decide_eq_true h.1
    have hbyte : (UInt8.ofNat c.toNat).toNat = c.toNat := by
      rw [UInt8.toNat_ofNat']
      omega
    rw [List.mapM_cons, ih h.2, Function.comp_apply, hbyte, if_pos hlt, c.ofNat?_toNat]
    rfl

theorem utf16Text?_encodeChars (cs : List Char) :
    utf16Text? (Utf16.encodeChars .big cs) = some (Text.ofChars cs) := by
  rw [utf16Text?, Utf16.decode?_encodeChars, Option.bind_some, Text.chars?_ofChars]
  rfl

theorem decode?_encodeText {t : Text} (ht : t.IsEncodable) (h : encodeText t = .ok bytes)
    (hlen : bytes.length < 0x10000000000000000) :
    decode? refSize (bytes ++ rest) = some (.scalar (.text t)) := by
  unfold encodeText at h
  by_cases hascii : t.all CodePoint.isAscii = true
  · rw [if_pos hascii] at h
    obtain rfl := Except.ok.inj h
    rw [List.length_append, List.length_map] at hlen
    have hcount : t.length < 0x10000000000000000 := by omega
    obtain ⟨low, s, hdecode, hsize⟩ := decode?_encodeSize refSize
      (t.map (fun c => UInt8.ofNat c.toNat) ++ rest) (show 5 < 16 by decide) hcount
    have hbody : decodeBody? refSize 5 low s = (takeSize? low s).bind fun p =>
        (takeExact? p.1 p.2).bind fun q => (asciiText? q.1).bind fun t =>
          some (.scalar (.text t)) := rfl
    rw [List.append_assoc]
    refine hdecode.trans ?_
    rw [hbody, hsize, Option.bind_some, takeExact?_append (List.length_map _), Option.bind_some,
      asciiText?_of_ascii hascii, Option.bind_some]
  -- the size of UTF-16 counts units of two bytes
  · obtain ⟨cs, rfl⟩ := ht
    rw [if_neg hascii, Text.chars?_ofChars] at h
    obtain rfl := Except.ok.inj h
    have heven := Utf16.length_encodeChars_mod_two .big cs
    generalize hbytes : Utf16.encodeChars .big cs = units at hlen heven
    rw [List.length_append] at hlen
    have hcount : units.length / 2 < 0x10000000000000000 := by omega
    obtain ⟨low, s, hdecode, hsize⟩ := decode?_encodeSize refSize (units ++ rest)
      (show 6 < 16 by decide) hcount
    have hbody : decodeBody? refSize 6 low s = (takeSize? low s).bind fun p =>
        (takeExact? (2 * p.1) p.2).bind fun q => (utf16Text? q.1).bind fun t =>
          some (.scalar (.text t)) := rfl
    rw [List.append_assoc]
    refine hdecode.trans ?_
    rw [hbody, hsize, Option.bind_some, takeExact?_append (by omega), Option.bind_some, ← hbytes,
      utf16Text?_encodeChars, Option.bind_some]

theorem decode?_encodeData {content : List UInt8}
    (hlen : (encodeSize 0x40 content.length ++ content).length < 0x10000000000000000) :
    decode? refSize (encodeSize 0x40 content.length ++ content ++ rest) =
      some (.scalar (.data content)) := by
  rw [List.length_append] at hlen
  have hcount : content.length < 0x10000000000000000 := by omega
  obtain ⟨low, s, hdecode, hsize⟩ := decode?_encodeSize refSize (content ++ rest)
    (show 4 < 16 by decide) hcount
  have hbody : decodeBody? refSize 4 low s = (takeSize? low s).bind fun p =>
      (takeExact? p.1 p.2).bind fun q => some (.scalar (.data q.1)) := rfl
  rw [List.append_assoc]
  refine hdecode.trans ?_
  rw [hbody, hsize, Option.bind_some, takeExact?_append rfl, Option.bind_some]

theorem double_bigEndian (x : Binary64) : double (bigEndian 8 x.bits.toNat) = x := by
  rw [double, ofBigEndian_bigEndian_of_lt x.bits.toNat_lt, UInt64.ofNat_toNat]

theorem decode?_real (x : Binary64) :
    decode? refSize (0x23 :: bigEndian 8 x.bits.toNat ++ rest) = some (.scalar (.real x)) := by
  show (takeExact? 8 (bigEndian 8 x.bits.toNat ++ rest)).map
    (fun p => Record.scalar (.real (double p.1))) = _
  rw [takeExact?_bigEndian, Option.map_some, double_bigEndian]

theorem decode?_date (t : DateTime) :
    decode? refSize (0x33 :: bigEndian 8 t.secondsSinceEpoch.bits.toNat ++ rest) =
      (DateTime.ofSeconds? t.secondsSinceEpoch).map fun t => .scalar (.date t) := by
  show ((takeExact? 8 (bigEndian 8 t.secondsSinceEpoch.bits.toNat ++ rest)).bind
    fun p => (DateTime.ofSeconds? (double p.1)).bind fun t => some (Record.scalar (.date t))) = _
  rw [takeExact?_bigEndian, Option.bind_some, double_bigEndian, Option.map_eq_bind]
  rfl

/-- Every storable scalar has a record. -/
theorem exists_encodeScalar {s : Scalar} (hs : s.IsStorable) : ∃ bytes, encodeScalar s = .ok bytes := by
  cases s with
  | null => exact ⟨_, rfl⟩
  | bool b => cases b <;> exact ⟨_, rfl⟩
  | int n =>
    obtain ⟨hlow, hhigh⟩ := hs
    show ∃ bytes, encodeInt n = .ok bytes
    unfold encodeInt
    by_cases hneg : n < 0
    · rw [if_pos hneg, if_pos hlow]
      exact ⟨_, rfl⟩
    · rw [if_neg hneg]
      -- the widest of the records has room for all integers that can be stored
      have hlt : n.toNat < 0x10000000000000000 := by omega
      simp only
      split_ifs <;> exact ⟨_, rfl⟩
  | real x => exact ⟨_, rfl⟩
  | text t =>
    obtain ⟨cs, rfl⟩ := hs
    show ∃ bytes, encodeText (Text.ofChars cs) = .ok bytes
    unfold encodeText
    rw [Text.chars?_ofChars]
    split_ifs <;> exact ⟨_, rfl⟩
  | data content => exact ⟨_, rfl⟩
  | date t => exact ⟨_, rfl⟩
  | uid n =>
    have hn : n < 0x10000000000000000 := hs
    show ∃ bytes, encodeUid n = .ok bytes
    unfold encodeUid
    split_ifs <;> exact ⟨_, rfl⟩

/-- Text that is written has no surrogates. -/
theorem isEncodable_of_encodeText {t : Text} (h : encodeText t = .ok bytes) : t.IsEncodable := by
  rw [encodeText] at h
  split at h
  · next hascii =>
    refine Text.isEncodable_iff.mpr fun c hc => ?_
    have hlow : c.toNat < 0x80 := of_decide_eq_true (List.all_eq_true.mp hascii c hc)
    cases c with
    | scalar d => exact ⟨d, rfl⟩
    | surrogate k =>
      rw [CodePoint.toNat] at hlow
      omega
  · split at h
    · next cs hcs => exact ⟨cs, Text.chars?_eq_some hcs⟩
    · cases h

/-- An integer that is written has 64 bits, with or without a sign. -/
theorem range_of_encodeInt {n : Int} (h : encodeInt n = .ok bytes) :
    -0x8000000000000000 ≤ n ∧ n < 0x10000000000000000 := by
  unfold encodeInt at h
  dsimp only at h
  split_ifs at h <;> omega

theorem lt_of_encodeUid {n : Nat} (h : encodeUid n = .ok bytes) : n < 0x10000000000000000 := by
  unfold encodeUid at h
  split_ifs at h <;> omega

/-- A scalar is read from its record as what is left of it. -/
theorem decode?_encodeScalar {s : Scalar} (h : encodeScalar s = .ok bytes)
    (hlen : bytes.length < 0x10000000000000000) :
    decode? refSize (bytes ++ rest) = s.reread?.map .scalar := by
  cases s with
  | null =>
    obtain rfl := Except.ok.inj h
    rfl
  | bool b =>
    cases b with
    | false =>
      obtain rfl := Except.ok.inj h
      rfl
    | true =>
      obtain rfl := Except.ok.inj h
      rfl
  | int n =>
    obtain ⟨hlow, hhigh⟩ := range_of_encodeInt h
    exact decode?_encodeInt hlow hhigh h
  | real x =>
    obtain rfl := Except.ok.inj h
    exact decode?_real x
  | text t => exact decode?_encodeText (isEncodable_of_encodeText h) h hlen
  | data content =>
    obtain rfl := Except.ok.inj h
    exact decode?_encodeData hlen
  | date t =>
    obtain rfl := Except.ok.inj h
    -- the seconds of the record are not always those of a date
    rw [decode?_date, Scalar.reread?, Option.map_map]
    rfl
  | uid n => exact decode?_encodeUid (lt_of_encodeUid h) h

/-! ## Records -/

/-- The records whose references fit a given width. -/
def Fits (refSize : Nat) : Record → Prop
  | scalar _ => True
  | array items => ∀ i ∈ items, i < 256 ^ refSize
  | dict keys values => keys.length = values.length ∧
      (∀ i ∈ keys, i < 256 ^ refSize) ∧ ∀ i ∈ values, i < 256 ^ refSize

theorem exists_encode {r : Record} (hr : ∀ s, r = .scalar s → s.IsStorable) :
    ∃ bytes, r.encode refSize = .ok bytes := by
  cases r with
  | scalar s => exact exists_encodeScalar (hr s rfl)
  | array items => exact ⟨_, rfl⟩
  | dict keys values => exact ⟨_, rfl⟩

theorem length_le_length_encodeRefs (hsize : 0 < refSize) (refs : List Nat) :
    refs.length ≤ (encodeRefs refSize refs).length := by
  rw [length_encodeRefs]
  exact Nat.le_mul_of_pos_left refs.length hsize

/-- What is read of a record: the references as they are, and of a scalar what is left of it. -/
def reread? : Record → Option Record
  | scalar s => s.reread?.map scalar
  | r => some r

theorem reread?_of_scalar {r : Record} (h : ∀ s, r = .scalar s → s.reread? = some s) :
    r.reread? = some r := by
  cases r with
  | scalar s =>
    rw [reread?, h s rfl]
    rfl
  | _ => rfl

/-- A record is read back, whatever follows it. -/
theorem decode?_encode {r : Record} (hsize : 0 < refSize) (hr : r.Fits refSize)
    (h : r.encode refSize = .ok bytes) (hlen : bytes.length < 0x10000000000000000) :
    decode? refSize (bytes ++ rest) = r.reread? := by
  cases r with
  | scalar s => exact decode?_encodeScalar h hlen
  | array items =>
    obtain rfl := Except.ok.inj h
    have hcount := length_le_length_encodeRefs hsize items
    rw [List.length_append] at hlen
    -- an item takes at least a byte, so a record that fits counts few enough of them
    have hlength : items.length < 0x10000000000000000 := by omega
    obtain ⟨low, s, hdecode, htake⟩ := decode?_encodeSize refSize (encodeRefs refSize items ++ rest)
      (show 10 < 16 by decide) hlength
    have hbody : decodeBody? refSize 10 low s = (takeSize? low s).bind fun p =>
        (takeNumbers? refSize p.1 p.2).bind fun q => some (.array q.1) := rfl
    rw [List.append_assoc]
    refine hdecode.trans ?_
    rw [hbody, htake, Option.bind_some, takeNumbers?_encodeRefs _ hsize hr, Option.bind_some]
    rfl
  | dict keys values =>
    obtain ⟨hsame, hkeys, hvalues⟩ := hr
    obtain rfl := Except.ok.inj h
    have hcount := length_le_length_encodeRefs hsize keys
    rw [List.length_append, List.length_append] at hlen
    have hlength : keys.length < 0x10000000000000000 := by omega
    obtain ⟨low, s, hdecode, htake⟩ := decode?_encodeSize refSize
      (encodeRefs refSize keys ++ (encodeRefs refSize values ++ rest)) (show 13 < 16 by decide) hlength
    -- the references to the keys stand in front, and there are as many to the values
    have hbody : decodeBody? refSize 13 low s = (takeSize? low s).bind fun p =>
        (takeNumbers? refSize p.1 p.2).bind fun q =>
          (takeNumbers? refSize p.1 q.2).bind fun q' => some (.dict q.1 q'.1) := rfl
    rw [List.append_assoc, List.append_assoc]
    refine hdecode.trans ?_
    rw [hbody, htake, Option.bind_some, takeNumbers?_encodeRefs _ hsize hkeys, Option.bind_some, hsame,
      takeNumbers?_encodeRefs _ hsize hvalues, Option.bind_some]
    rfl

end Binary.Record

end PropertyList
