/-
  PropertyList.Proofs.Conversion.Auto

  From a binary list to XML and back, with no encoding asked for.  The way back always
  succeeds, and the list at its end holds what XML leaves of the document: line breaks
  are line feeds, dates fall on whole seconds, and keys that have become equal are one.
-/
import PropertyList.Conversion
import PropertyList.Proofs.Binary.Trees
import PropertyList.Proofs.Recognition
import PropertyList.Proofs.Xml.Faults
import PropertyList.Proofs.Xml.Reals

namespace PropertyList

/-! ## What XML leaves -/

/-- A text without the two code points that XML can write but not read. -/
def Text.IsReadable (t : Text) : Prop := ∀ c ∈ t, c.toNat ≠ 0xFFFE ∧ c.toNat ≠ 0xFFFF

theorem Text.isLegal_of_hasForm {t : Text} (h : Encoding.xml.HasForm (.text t))
    (hreadable : t.IsReadable) : t.IsLegal := by
  obtain ⟨⟨cs, rfl⟩, hplain⟩ := h
  refine ⟨cs, rfl, fun c hc => ?_⟩
  have hmem : CodePoint.scalar c ∈ ofChars cs := List.mem_map_of_mem hc
  have hnat : (CodePoint.scalar c).toNat = c.toNat := rfl
  have hcontrol := hplain _ hmem
  obtain ⟨hlow, hhigh⟩ := hreadable _ hmem
  simp only [Xml.isControl, hnat, Bool.and_eq_false_iff, decide_eq_false_iff_not] at hcontrol
  simp only [Xml.isLegal, Bool.or_eq_true, Bool.and_eq_true, decide_eq_true_eq]
  omega

theorem Text.isEncodable_unifyBreaks {t : Text} (h : t.IsLegal) : t.unifyBreaks.IsEncodable := by
  obtain ⟨cs, rfl, -⟩ := h
  exact ⟨Xml.unifyBreaks false [] cs, (Xml.ofChars_unifyBreaks false [] cs).symm⟩

namespace Value

variable {P P' : Scalar → Prop} {K : List Scalar → Prop} {v : Value}

/-- What is left of a tree in XML can be stored in a binary list. -/
theorem Over.isStorable_normal (h : v.Over Xml.IsKept (TextKeys Text.IsLegal)) :
    v.normal.Over Scalar.IsStorable (TextKeys Text.IsEncodable) := by
  refine h.transform _ _ (fun s hs => ?_) fun es hkeys =>
    mergeEntries_spec (fun _ => Text.isEncodable_unifyBreaks) hkeys
  rcases hs with hs | ⟨x, rfl⟩
  · cases s with
    | text t => exact Text.isEncodable_unifyBreaks hs
    | date t => exact ⟨DateTime.wholeSecond_isValid hs, rfl⟩
    | int n => exact hs
    | _ => trivial
  · trivial

theorem Over.depth_normal_le (h : v.Over Xml.IsKept (TextKeys Text.IsLegal)) :
    v.normal.depth ≤ v.depth :=
  depth_transform_le h fun _ hkeys =>
    (mergeEntries_spec (fun _ => Text.isEncodable_unifyBreaks) hkeys).2

end Value

/-! ## From a binary list to XML -/

section

variable {bytes : List UInt8} {g : Graph} {sortKeys : Bool}

/-- A document of a binary list that XML can express, and read again, is a tree of scalars that XML
    keeps. -/
theorem Binary.over_isKept (hread : Binary.read bytes = .ok g)
    (hexpresses : Encoding.xml.Expresses sortKeys g.value)
    (hreadable : ∀ t, g.value.Mentions (.text t) → t.IsReadable) :
    g.value.Over Xml.IsKept (TextKeys Text.IsLegal) := by
  obtain ⟨hapart, hdates⟩ := Binary.over_of_read hread
    (hexpresses.mono (fun _ _ => trivial) fun _ _ => trivial)
  have hall := Value.over_and_mentions.mpr ⟨hexpresses.and hapart, fun s hs =>
    (⟨fun t ht => hreadable t (ht ▸ hs), fun t ht => hdates t (ht ▸ hs)⟩ :
      (∀ t, s = .text t → t.IsReadable) ∧ ∀ t, s = .date t → t.IsValid)⟩
  -- what XML can express and what binary lists hold, taken together
  refine hall.mono ?_ ?_
  · rintro s ⟨⟨hform, -⟩, htext, hdate⟩
    cases s with
    | real x => exact .inr ⟨x, rfl⟩
    | text t => exact .inl (Text.isLegal_of_hasForm hform (htext t rfl))
    | date t => exact .inl (hdate t rfl)
    | _ => exact .inl hform
  · rintro keys ⟨⟨hkeys, hapart⟩, hscalars⟩
    refine textKeys_of_apart hapart fun k hk => ?_
    -- a key that is no text would have been refused
    have htext : k.text?.isSome = true := (hkeys.text k hk).resolve_left (by decide)
    have heq := Scalar.eq_text_keyText htext
    refine ⟨k.keyText, heq, Text.isLegal_of_hasForm ?_ ((hscalars k hk).1 _ heq)⟩
    rw [← heq]
    exact hkeys.form k hk

end

/-! ## Conversions with nothing asked for -/

section

variable {settings : Settings} {payload : Payload} {d : Document} {bytes : List UInt8}

theorem chooseEncodings_of_binary (h : isBinary bytes = true) :
    ∃ chosen, chooseEncodings bytes .auto = (Encoding.binary.read, .xml, chosen) :=
  ⟨_, if_pos h⟩

theorem chooseEncodings_of_not_binary (h : isBinary bytes = false) :
    ∃ chosen, chooseEncodings bytes .auto = (Encoding.xml.read, .binary, chosen) :=
  ⟨_, if_neg (Bool.eq_false_iff.mp h)⟩

theorem isBinary_of_read (h : Encoding.binary.read bytes = .ok d) : isBinary bytes = true := by
  by_contra hnot
  rw [Encoding.read] at h
  simp only [if_neg hnot] at h
  cases h

/-- What is rendered of a binary list is XML. -/
theorem write_of_rendered {x : Rendered} (hread : Encoding.binary.read payload.bytes = .ok d)
    (hx : (convert settings payload .auto).rendered = some x) :
    x.encoding = .xml ∧ Encoding.xml.write settings.writeOptions d = .ok x.bytes := by
  obtain ⟨chosen, hchoose⟩ := chooseEncodings_of_binary (isBinary_of_read hread)
  simp only [convert, hchoose, hread] at hx
  cases hwrite : Encoding.xml.write settings.writeOptions d with
  | error f =>
    simp only [hwrite] at hx
    cases hx
  | ok bytes =>
    simp only [hwrite] at hx
    obtain rfl := Option.some.inj hx
    exact ⟨rfl, rfl⟩

/-- XML is read as such, and becomes a binary list. -/
theorem convert_of_not_binary {q : List UInt8} (source : String) (hbinary : isBinary bytes = false)
    (hread : Encoding.xml.read bytes = .ok d)
    (hwrite : Encoding.binary.write settings.writeOptions d = .ok q) :
    (convert settings ⟨bytes, source⟩ .auto).outcome = ⟨.success, .success⟩ ∧
      (convert settings ⟨bytes, source⟩ .auto).rendered = some ⟨q, .binary⟩ := by
  obtain ⟨chosen, hchoose⟩ := chooseEncodings_of_not_binary hbinary
  constructor
  · simp only [convert, hchoose, hread, hwrite]
  · simp only [convert, hchoose, hread, hwrite]

end

theorem isBinary_of_recognize? {bytes : List UInt8} (h : recognize? bytes = some .xml) :
    isBinary bytes = false :=
  isBinary_of_recognize?_of_ne h (by decide)

/-! ## There and back -/

/-- The XML of a tree of scalars that XML keeps is read as a tree that can be stored, and what is
    read of the stored list is what XML leaves of the first tree. -/
theorem exists_rewritten {v : Value} (options : WriteOptions) {bytes : List UInt8}
    (hv : v.Over Xml.IsKept (TextKeys Text.IsLegal)) (hdepth : v.depth ≤ 250)
    (hwrite : Xml.write options.sortKeys v = .ok bytes) :
    ∃ d q, Encoding.xml.read bytes = .ok d ∧ Encoding.binary.write options d = .ok q ∧
      (q.length < 0x8000000000000000 → ∃ g,
        Encoding.binary.read q = .ok ⟨.only .binary, some g⟩ ∧
        g.value.Same (((v.arranged options.sortKeys).normal).arranged options.sortKeys)) := by
  have hlimit : v.depth ≤ Xml.writeDepth := Nat.le_trans hdepth (by decide)
  obtain ⟨bytes', hwrite', hread⟩ := Xml.exists_write_kept hv hlimit options.sortKeys
  obtain rfl := Except.ok.inj (hwrite'.symm.trans hwrite)
  have harranged : (v.arranged options.sortKeys).Over Xml.IsKept (TextKeys Text.IsLegal) :=
    hv.arranged options.sortKeys fun _ _ hperm hkeys => hkeys.perm hperm
  -- the tree that was read
  generalize hnormal : (v.arranged options.sortKeys).normal = u at hread
  have hu : u.Over Scalar.IsStorable (TextKeys Text.IsEncodable) := hnormal ▸ harranged.isStorable_normal
  have hudepth : u.depth ≤ v.depth := by
    rw [← hnormal]
    exact Nat.le_trans harranged.depth_normal_le (Value.depth_arranged_le _ v)
  have hstorable : (u.mapScalars Scalar.inText).Over Scalar.IsStorable (TextKeys Text.IsEncodable) :=
    hu.mapScalars fun s hs => by cases s <;> exact hs
  have hdepth' : (u.mapScalars Scalar.inText).depth ≤ u.depth :=
    Value.depth_transform_le hu fun _ _ e he => ⟨e, he, rfl⟩
  have hholds := Graph.holds_ofValue hstorable
  obtain ⟨objects, rs, q, hstored⟩ :=
    Binary.exists_stored hholds hstorable (by omega) options.sortKeys
  refine ⟨_, q, Encoding.xml_read_of_ok hread, Encoding.binary_write_of_ok hstored.write, ?_⟩
  intro hlen
  obtain ⟨g, w, hreread, hw, hsame⟩ :=
    hstored.exists_read hholds (Binary.hasTextKeys_of_over hstorable) hlen
  refine ⟨g, Encoding.binary_read_of_ok hstored.header hreread, ?_⟩
  rw [hw.value_eq]
  rw [Value.arranged_mapScalars] at hsame
  exact Value.same_of_mapScalars (fun _ _ => Scalar.same_of_inText) hsame

/-- A binary list of at most 250 levels is rendered as XML, if it is rendered at all; this XML is
    converted back without a fault, and the binary list that comes of it holds exactly what XML
    leaves of the first document, with its entries in the same order or, if keys are sorted, in the
    order of their keys.  A list of `2 ^ 63` bytes or more cannot be read. -/
theorem convert_convert_auto {settings : Settings} {payload : Payload} {g : Graph} {x : Rendered}
    (hread : Encoding.binary.read payload.bytes = .ok ⟨.only .binary, some g⟩)
    (hdepth : g.value.depth ≤ 250)
    (hreadable : ∀ t, g.value.Mentions (.text t) → t.IsReadable)
    (hx : (convert settings payload .auto).rendered = some x) (source : String) :
    x.encoding = .xml ∧ ∃ q,
      (convert settings ⟨x.bytes, source⟩ .auto).outcome = ⟨.success, .success⟩ ∧
      (convert settings ⟨x.bytes, source⟩ .auto).rendered = some ⟨q, .binary⟩ ∧
      (q.length < 0x8000000000000000 → ∃ g',
        Encoding.binary.read q = .ok ⟨.only .binary, some g'⟩ ∧
        g'.value.Same
          (((g.value.arranged settings.sortKeys).normal).arranged settings.sortKeys)) := by
  obtain ⟨hencoding, hwrite⟩ := write_of_rendered hread hx
  have hxml : Xml.write settings.sortKeys g.value = .ok x.bytes := eq_ok_of_mapError hwrite
  have hdecides := Xml.decides_write settings.sortKeys g.value
  rw [hxml] at hdecides
  have hexpresses := (hdecides.isOk_iff.mp rfl).1
  have hkept := Binary.over_isKept (Encoding.read_of_binary_read hread) hexpresses hreadable
  have hbinary := isBinary_of_recognize? (Xml.recognize?_write hxml)
  obtain ⟨d, q, hd, hq, hback⟩ := exists_rewritten settings.writeOptions hkept hdepth hxml
  obtain ⟨houtcome, hrendered⟩ := convert_of_not_binary source hbinary hd hq
  exact ⟨hencoding, q, houtcome, hrendered, hback⟩

/-- A dictionary of two keys that differ in a line break, a real that is no number, and a date
    within a second.  The keys become one, in the place of the first and with the value of the
    second. -/
theorem convert_convert_auto_merged :
    ∃ payload g x q g', payload.bytes = Binary.header ++ [0xD3, 1, 2, 3, 4, 5, 6, 0x53, 0x61, 0x0D,
        0x0A, 0x51, 0x62, 0x52, 0x61, 0x0A, 0x23, 0x3F, 0xB9, 0x99, 0x99, 0x99, 0x99, 0x99, 0x9A,
        0x33, 0x3F, 0xF8, 0, 0, 0, 0, 0, 0, 0x23, 0xFF, 0xF8, 0, 0, 0, 0, 0, 1,
        8, 0x0F, 0x13, 0x15, 0x18, 0x21, 0x2A, 0, 0, 0, 0, 0, 0, 1, 1, 0, 0, 0, 0, 0, 0, 0, 7,
        0, 0, 0, 0, 0, 0, 0, 0, 0, 0, 0, 0, 0, 0, 0, 0x33] ∧
      Encoding.binary.read payload.bytes = .ok ⟨.only .binary, some g⟩ ∧
      g.value = .dict [(.text (Text.ofString "a\r\n"), .real ⟨0x3FB999999999999A⟩),
        (.text (Text.ofString "b"), .date ⟨2001, 1, 1, 0, 0, 1, 500000⟩),
        (.text (Text.ofString "a\n"), .real ⟨0xFFF8000000000001⟩)] ∧
      (convert {} payload .auto).rendered = some x ∧ x.encoding = .xml ∧
      (convert {} ⟨x.bytes, Settings.standardStream⟩ .auto).outcome = ⟨.success, .success⟩ ∧
      (convert {} ⟨x.bytes, Settings.standardStream⟩ .auto).rendered = some ⟨q, .binary⟩ ∧
      Encoding.binary.read q = .ok ⟨.only .binary, some g'⟩ ∧
      g'.value.Same (.dict [(.text (Text.ofString "a\n"), .real ⟨0xFFF8000000000001⟩),
        (.text (Text.ofString "b"), .date ⟨2001, 1, 1, 0, 0, 1, 0⟩)]) := by
  let payload : Payload := { bytes := Binary.header ++ [0xD3, 1, 2, 3, 4, 5, 6, 0x53, 0x61, 0x0D,
    0x0A, 0x51, 0x62, 0x52, 0x61, 0x0A, 0x23, 0x3F, 0xB9, 0x99, 0x99, 0x99, 0x99, 0x99, 0x9A,
    0x33, 0x3F, 0xF8, 0, 0, 0, 0, 0, 0, 0x23, 0xFF, 0xF8, 0, 0, 0, 0, 0, 1,
    8, 0x0F, 0x13, 0x15, 0x18, 0x21, 0x2A, 0, 0, 0, 0, 0, 0, 1, 1, 0, 0, 0, 0, 0, 0, 0, 7,
    0, 0, 0, 0, 0, 0, 0, 0, 0, 0, 0, 0, 0, 0, 0, 0x33] }
  let entries : List (Scalar × Value) := [
    (.text (Text.ofString "a\r\n"), .real ⟨0x3FB999999999999A⟩),
    (.text (Text.ofString "b"), .date ⟨2001, 1, 1, 0, 0, 1, 500000⟩),
    (.text (Text.ofString "a\n"), .real ⟨0xFFF8000000000001⟩)]
  let g : Graph := ⟨#[.dict [(1, 4), (2, 5), (3, 6)], .scalar (.text (Text.ofString "a\r\n")),
    .scalar (.text (Text.ofString "b")), .scalar (.text (Text.ofString "a\n")),
    .scalar (.real ⟨0x3FB999999999999A⟩), .scalar (.date ⟨2001, 1, 1, 0, 0, 1, 500000⟩),
    .scalar (.real ⟨0xFFF8000000000001⟩)], 0⟩
  have hgraph : Binary.read payload.bytes = .ok g := by decide +kernel
  have hread : Encoding.binary.read payload.bytes = .ok ⟨.only .binary, some g⟩ :=
    Encoding.binary_read_of_ok (by decide) hgraph
  have hvalue : g.value = .dict entries := rfl
  have hreadable : ∀ t, g.value.Mentions (.text t) → t.IsReadable := by
    intro t ht
    rw [hvalue, Value.mentions_dict_iff] at ht
    obtain ⟨e, he, ht⟩ := ht
    simp only [entries, List.mem_cons, List.not_mem_nil, or_false] at he
    unfold Text.IsReadable
    rcases he with rfl | rfl | rfl <;> rcases ht with ht | ⟨⟨⟩⟩ <;> cases ht <;> decide
  obtain ⟨x, hx⟩ : ∃ x, (convert {} payload .auto).rendered = some x :=
    Option.isSome_iff_exists.mp (by decide +kernel)
  obtain ⟨hencoding, q, houtcome, hrendered, hback⟩ :=
    convert_convert_auto hread (by decide +kernel) hreadable hx Settings.standardStream
  have hlength : ((convert {} payload .auto).rendered.bind fun x =>
      (convert {} ⟨x.bytes, Settings.standardStream⟩ .auto).rendered).map (·.bytes.length) =
        some 73 := by decide +kernel
  rw [hx, Option.bind_some, hrendered] at hlength
  have hlen : q.length = 73 := Option.some.inj hlength
  obtain ⟨g', hread', hsame⟩ := hback (by rw [hlen]; decide)
  refine ⟨payload, g, x, q, g', rfl, hread, hvalue, hx, hencoding, houtcome, hrendered, hread', ?_⟩
  exact hsame

/-- A carriage return comes back as a line feed. -/
theorem convert_convert_auto_return :
    ∃ payload g q g', payload.bytes = Binary.header ++ [0x51, 0x0D, 8, 0, 0, 0, 0, 0, 0, 1, 1,
        0, 0, 0, 0, 0, 0, 0, 1, 0, 0, 0, 0, 0, 0, 0, 0, 0, 0, 0, 0, 0, 0, 0, 0x0A] ∧
      Encoding.binary.read payload.bytes = .ok ⟨.only .binary, some g⟩ ∧
      ((convert {} payload .auto).rendered.bind fun x =>
        (convert {} ⟨x.bytes, Settings.standardStream⟩ .auto).rendered).map (·.bytes) = some q ∧
      Encoding.binary.read q = .ok ⟨.only .binary, some g'⟩ ∧ ¬ g'.value.Same g.value := by
  let tail : List UInt8 := [8, 0, 0, 0, 0, 0, 0, 1, 1, 0, 0, 0, 0, 0, 0, 0, 1,
    0, 0, 0, 0, 0, 0, 0, 0, 0, 0, 0, 0, 0, 0, 0, 0x0A]
  let payload : Payload := { bytes := Binary.header ++ 0x51 :: 0x0D :: tail }
  let q := Binary.header ++ 0x51 :: 0x0A :: tail
  let g : Graph := ⟨#[.scalar (.text [.scalar '\r'])], 0⟩
  let g' : Graph := ⟨#[.scalar (.text [.scalar '\n'])], 0⟩
  have hread : Binary.read payload.bytes = .ok g := by decide +kernel
  have hread' : Binary.read q = .ok g' := by decide +kernel
  have hconvert : ((convert {} payload .auto).rendered.bind fun x =>
      (convert {} ⟨x.bytes, Settings.standardStream⟩ .auto).rendered).map (·.bytes) = some q := by
    decide +kernel
  refine ⟨payload, g, q, g', rfl, Encoding.binary_read_of_ok (by decide) hread, hconvert,
    Encoding.binary_read_of_ok (by decide) hread', fun hsame => ?_⟩
  have hscalars : (Value.scalar (.text [.scalar '\n'])).Same (.scalar (.text [.scalar '\r'])) := hsame
  rw [Value.Same] at hscalars
  cases hscalars

end PropertyList
