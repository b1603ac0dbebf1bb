/-
  PropertyList.Proofs.Conversion.Limits

  Where the limits of the encodings are, said of the numbers and texts of a tree alone.
  With texts as keys, a tree can be written if each scalar in it has a form, wherever
  it stands; the forms differ by encoding in what they lack and in how large numbers
  may be.
-/
import PropertyList.Proofs.Conversion.Outcome

namespace PropertyList

/-! ## Texts and numbers -/

theorem Text.isEncodable_iff_not_mem {t : Text} :
    t.IsEncodable ↔ ∀ k, CodePoint.surrogate k ∉ t := by
  rw [isEncodable_iff]
  constructor
  · intro h k hk
    obtain ⟨d, hd⟩ := h _ hk
    cases hd
  · intro h c hc
    cases c with
    | scalar d => exact ⟨d, rfl⟩
    | surrogate k => exact absurd hc (h k)

/-- Integers can be shown if their digits are not more than the limit. -/
theorem Integer.isPrintable_iff {n : Int} :
    isPrintable n = true ↔ (digits n.natAbs).length ≤ digitLimit := by
  rw [isPrintable, decide_eq_true_iff, length_digits_le_iff (by decide)]

theorem Xml.isControl_eq_false_iff {c : CodePoint} :
    isControl c = false ↔ (c.toNat < 0x20 → c.toNat ∈ [0x09, 0x0A, 0x0D]) := by
  simp only [isControl, Bool.and_eq_false_iff, decide_eq_false_iff_not, List.mem_cons,
    List.not_mem_nil, or_false]
  omega

/-! ## Scalars -/

namespace Value

variable (v : Value)

/-- All integers have 64 bits, with or without a sign. -/
def HasWords : Prop :=
  ∀ n, v.Mentions (.int n) → -0x8000000000000000 ≤ n ∧ n < 0x10000000000000000

/-- No text and no key holds half of a surrogate pair. -/
def HasNoSurrogate : Prop := ∀ t, v.Mentions (.text t) → ∀ k, CodePoint.surrogate k ∉ t

/-- No text and no key holds a control character other than tab, line feed and carriage return. -/
def HasNoControl : Prop :=
  ∀ t, v.Mentions (.text t) → ∀ c ∈ t, c.toNat < 0x20 → c.toNat ∈ [0x09, 0x0A, 0x0D]

end Value

namespace Encoding

variable {v : Value}

/-- UIDs are numbers of 64 bits, so a binary list lacks a form only for larger integers and for
    surrogates. -/
theorem forall_hasForm_binary (huid : ∀ n, v.Mentions (.uid n) → n < 0x10000000000000000) :
    (∀ s, v.Mentions s → binary.HasForm s) ↔ v.HasWords ∧ v.HasNoSurrogate := by
  constructor
  · intro h
    exact ⟨fun n hn => h _ hn, fun t ht => Text.isEncodable_iff_not_mem.mp (h _ ht)⟩
  · rintro ⟨hint, htext⟩ s hs
    cases s with
    | int n => exact hint n hs
    | text t => exact Text.isEncodable_iff_not_mem.mpr (htext t hs)
    | uid n => exact huid n hs
    | _ => trivial

/-- XML has no form for null and UIDs, and none for texts with control characters. -/
theorem forall_hasForm_xml : (∀ s, v.Mentions s → xml.HasForm s) ↔
    (v.HasWords ∧ v.HasNoSurrogate) ∧
      ¬ v.Mentions .null ∧ (∀ n, ¬ v.Mentions (.uid n)) ∧ v.HasNoControl := by
  constructor
  · intro h
    refine ⟨⟨fun n hn => h _ hn, fun t ht => ?_⟩, h .null, fun n => h (.uid n), fun t ht c hc => ?_⟩
    · exact Text.isEncodable_iff_not_mem.mp (h _ ht).1
    · exact Xml.isControl_eq_false_iff.mp ((h _ ht).2 c hc)
  · rintro ⟨⟨hint, htext⟩, hnull, huid, hcontrol⟩ s hs
    cases s with
    | null => exact hnull hs
    | int n => exact hint n hs
    | text t =>
      refine ⟨Text.isEncodable_iff_not_mem.mpr (htext t hs), fun c hc => ?_⟩
      exact Xml.isControl_eq_false_iff.mpr (hcontrol t hs c hc)
    | uid n => exact huid n hs
    | _ => trivial

/-- JSON has no form for data, dates and UIDs, and none for numbers that are not finite or have too
    many digits. -/
theorem forall_hasForm_json : (∀ s, v.Mentions s → json.HasForm s) ↔
    (∀ bytes, ¬ v.Mentions (.data bytes)) ∧ (∀ t, ¬ v.Mentions (.date t)) ∧
      (∀ n, ¬ v.Mentions (.uid n)) ∧ (∀ x, v.Mentions (.real x) → x.isFinite = true) ∧
      v.HasNoSurrogate ∧
      ∀ n, v.Mentions (.int n) → (Integer.digits n.natAbs).length ≤ digitLimit := by
  constructor
  · intro h
    exact ⟨fun bytes => h (.data bytes), fun t => h (.date t), fun n => h (.uid n), fun x => h (.real x),
      fun t ht => Text.isEncodable_iff_not_mem.mp (h _ ht),
      fun n hn => Integer.isPrintable_iff.mp (h _ hn)⟩
  · rintro ⟨hdata, hdate, huid, hreal, htext, hint⟩ s hs
    cases s with
    | int n => exact Integer.isPrintable_iff.mpr (hint n hs)
    | real x => exact hreal x hs
    | text t => exact Text.isEncodable_iff_not_mem.mpr (htext t hs)
    | data bytes => exact hdata bytes hs
    | date t => exact hdate t hs
    | uid n => exact huid n hs
    | _ => trivial

end Encoding

/-! ## Documents -/

/-- A tree of which a document is written, by what the encoding asks of its scalars. -/
theorem isOk_write_iff_forall {g : Graph} {v : Value} (hv : g.Holds g.root v)
    (hkeys : Binary.HasTextKeys v) (hdepth : v.depth ≤ 250) (e : Encoding) (options : WriteOptions)
    (source : Selector) : (e.write options ⟨source, some g⟩).isOk = true ↔
      ∀ s, v.Mentions s → e.HasForm s :=
  (decides_writeGraph e options hv hdepth).isOk_iff.trans (Encoding.expresses_iff_of_text hkeys)

/-- A document with texts as keys is written as a binary list if its integers have 64 bits and its
    texts no surrogates; as XML if it has, besides, no null, no UIDs and no control characters but
    those that XML can hold; and as JSON if it has no data, dates and UIDs, no reals that are not
    finite, no surrogates, and no integers with too many digits.  The options do not matter. -/
theorem isOk_write_iff {g : Graph} {v : Value} (hv : g.Holds g.root v)
    (hkeys : Binary.HasTextKeys v) (hdepth : v.depth ≤ 250)
    (huid : ∀ n, v.Mentions (.uid n) → n < 0x10000000000000000) (options : WriteOptions)
    (source : Selector) :
    ((Encoding.binary.write options ⟨source, some g⟩).isOk = true ↔
      v.HasWords ∧ v.HasNoSurrogate) ∧
    ((Encoding.xml.write options ⟨source, some g⟩).isOk = true ↔
      (v.HasWords ∧ v.HasNoSurrogate) ∧
        ¬ v.Mentions .null ∧ (∀ n, ¬ v.Mentions (.uid n)) ∧ v.HasNoControl) ∧
    ((Encoding.json.write options ⟨source, some g⟩).isOk = true ↔
      (∀ bytes, ¬ v.Mentions (.data bytes)) ∧ (∀ t, ¬ v.Mentions (.date t)) ∧
        (∀ n, ¬ v.Mentions (.uid n)) ∧ (∀ x, v.Mentions (.real x) → x.isFinite = true) ∧
        v.HasNoSurrogate ∧
        ∀ n, v.Mentions (.int n) → (Integer.digits n.natAbs).length ≤ 4300) := by
  refine ⟨?_, ?_, ?_⟩
  · exact (isOk_write_iff_forall hv hkeys hdepth .binary options source).trans
      (Encoding.forall_hasForm_binary huid)
  · exact (isOk_write_iff_forall hv hkeys hdepth .xml options source).trans
      Encoding.forall_hasForm_xml
  · exact (isOk_write_iff_forall hv hkeys hdepth .json options source).trans
      Encoding.forall_hasForm_json

/-- The largest integer and the largest UID fit a binary list, next to a control character that XML
    cannot hold and data that JSON cannot. -/
theorem isOk_write_iff_largest :
    ∃ v, v = .dict [(.text (Text.ofString "k"), .array [.int 0xFFFFFFFFFFFFFFFF,
        .uid 0xFFFFFFFFFFFFFFFF, .text (Text.ofString "\x01"), .data [0]])] ∧
      v.HasWords ∧ v.HasNoSurrogate ∧
      (Encoding.binary.write {} ⟨.auto, some (.ofValue v)⟩).isOk = true ∧
      ¬ ((v.HasWords ∧ v.HasNoSurrogate) ∧
        ¬ v.Mentions .null ∧ (∀ n, ¬ v.Mentions (.uid n)) ∧ v.HasNoControl) ∧
      (Encoding.xml.write {} ⟨.auto, some (.ofValue v)⟩).isOk = false ∧
      v.Mentions (.data [0]) ∧
      (Encoding.json.write {} ⟨.auto, some (.ofValue v)⟩).isOk = false := by
  let v : Value := .dict [(.text (Text.ofString "k"), .array [.int 0xFFFFFFFFFFFFFFFF,
    .uid 0xFFFFFFFFFFFFFFFF, .text (Text.ofString "\x01"), .data [0]])]
  have htree : v.Over (fun _ => True) fun keys => ∀ k ∈ keys, k.text?.isSome = true := by
    refine .dict (by simp [Scalar.text?]) fun e he => ?_
    obtain rfl := List.mem_singleton.mp he
    refine .array fun w hw => ?_
    simp only [List.mem_cons, List.not_mem_nil, or_false] at hw
    rcases hw with rfl | rfl | rfl | rfl <;> exact .scalar trivial
  have huid : ∀ n, v.Mentions (.uid n) → n < 0x10000000000000000 := by
    intro n hn
    simp [v, Value.mentions_dict_iff, Value.mentions_array_iff, Value.mentions_scalar_iff] at hn
    omega
  have hdata : v.Mentions (.data [0]) := by
    simp [v, Value.mentions_dict_iff, Value.mentions_array_iff, Value.mentions_scalar_iff]
  obtain ⟨hbinary, hxml, hjson⟩ :=
    isOk_write_iff (Graph.holds_ofValue htree) htree (by decide) huid {} .auto
  have hwrites : (Encoding.binary.write {} ⟨.auto, some (.ofValue v)⟩).isOk = true := by
    decide +kernel
  have hlacks : (Encoding.xml.write {} ⟨.auto, some (.ofValue v)⟩).isOk = false := by
    decide +kernel
  obtain ⟨hint, htext⟩ := hbinary.mp hwrites
  refine ⟨v, rfl, hint, htext, hwrites, fun h => ?_, hlacks, hdata, ?_⟩
  · rw [hxml.mpr h] at hlacks
    cases hlacks
  · exact Bool.eq_false_iff.mpr fun h => (hjson.mp h).1 [0] hdata

end PropertyList
