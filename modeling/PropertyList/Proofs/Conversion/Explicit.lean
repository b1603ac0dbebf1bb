/-
  PropertyList.Proofs.Conversion.Explicit

  Asking for the encoding that would be chosen anyway.  With nothing asked for,
  bytes without the binary header go to the XML reader as they are; with an
  encoding asked for, they must show first that they are XML.  They do, but for
  UTF-16 without a byte order mark that starts with a zero or with white space.
-/
import PropertyList.Proofs.Conversion.Auto
import PropertyList.Proofs.Conversion.Rendered
import PropertyList.Proofs.Xml.FirstBytes

namespace PropertyList

/-! ## Recognizing XML -/

/-- Bytes that start with the first character of a document in UTF-16, without a byte order mark
    in front of it, and not with the bracket itself. -/
inductive Xml.IsUnmarked : List UInt8 → Prop where
  | big (s : List UInt8) : IsUnmarked (0 :: s)
  | little {a : UInt8} (ha : isLeadingBlank a = true) (s : List UInt8) : IsUnmarked (a :: 0 :: s)

namespace Xml.IsUnmarked

variable {bytes : List UInt8}

theorem isBinary_eq_false (h : IsUnmarked bytes) : isBinary bytes = false := by
  cases h with
  | big s => exact isBinary_cons_of_ne (by decide) s
  | little ha s => exact isBinary_cons_of_ne (ne_of_isLeadingBlank ha).1 (0 :: s)

/-- There is nothing to recognize in such bytes. -/
theorem recognize?_eq_none (h : IsUnmarked bytes) : recognize? bytes = none := by
  cases h with
  | big s => exact PropertyList.recognize?_eq_none (by decide) (by decide) s
  | little ha s =>
    rw [recognize?_blank ha, Xml.dropLeadingBlanks_cons ha]
    rfl

end Xml.IsUnmarked

section

variable {bytes : List UInt8}

/-- Bytes that start with a bracket behind a mark and blanks are recognized. -/
theorem recognize?_of_bracket (hbinary : isBinary bytes = false) {t : List UInt8}
    (h : dropMark (dropLeadingBlanks bytes) = 0x3C :: t) : recognize? bytes = some .xml := by
  rw [recognize?, hbinary, h]
  split
  · next hfalse => cases hfalse
  · split <;> rfl

/-- What can be read as XML is recognized as XML, or is UTF-16 that does not show itself. -/
theorem recognize?_of_read {v : Value} (hbinary : isBinary bytes = false)
    (h : Xml.read bytes = .ok v) : Xml.IsUnmarked bytes ∨ recognize? bytes = some .xml := by
  have hopens := Xml.opensMarkup_of_read h
  unfold Xml.detectCoding at hopens
  split at hopens
  · -- the mark of UTF-8
    obtain ⟨t, ht⟩ := Xml.exists_dropLeadingBlanks_eq hopens
    exact .inr (recognize?_of_bracket hbinary ht)
  · next a b s _ =>
    split at hopens
    · next hmark =>
      -- one mark of UTF-16 and then the other, either of which is recognized
      obtain ⟨rfl, rfl⟩ := hmark
      exact .inr rfl
    split at hopens
    · next hmark =>
      obtain ⟨rfl, rfl⟩ := hmark
      exact .inr rfl
    split at hopens
    · next hzero =>
      -- a zero first: the text is UTF-16 with the high byte in front, and shows nothing
      subst hzero
      exact .inl (.big _)
    split at hopens
    · next hzero =>
      subst hzero
      -- with the low byte in front, a bracket is seen but a blank is not
      rcases Xml.bracket_or_blank_of_little hopens with rfl | hblank
      · exact .inr rfl
      · exact .inl (.little hblank s)
    · obtain ⟨t, ht⟩ := Xml.exists_dropLeadingBlanks_eq hopens
      exact .inr (recognize?_of_bracket hbinary (by rw [ht]; rfl))
  · obtain ⟨t, ht⟩ := Xml.exists_dropLeadingBlanks_eq hopens
    exact .inr (recognize?_of_bracket hbinary (by rw [ht]; rfl))

end

/-! ## Conversions -/

section

variable {settings : Settings} {payload : Payload} {selector selector' : Selector}

/-- Only what is read and what it is written as make a difference to a conversion, but for its
    log. -/
theorem convert_congr
    (hread : (chooseEncodings payload.bytes selector).1 payload.bytes =
      (chooseEncodings payload.bytes selector').1 payload.bytes)
    (htarget : (chooseEncodings payload.bytes selector).2.1 =
      (chooseEncodings payload.bytes selector').2.1) :
    (convert settings payload selector).outcome = (convert settings payload selector').outcome ∧
      (convert settings payload selector).rendered =
        (convert settings payload selector').rendered := by
  simp only [convert]
  generalize chooseEncodings payload.bytes selector = chosen at hread htarget ⊢
  generalize chooseEncodings payload.bytes selector' = chosen' at hread htarget ⊢
  obtain ⟨read, target, messages⟩ := chosen
  obtain ⟨read', target', messages'⟩ := chosen'
  dsimp only at hread htarget ⊢
  subst htarget
  rw [← hread]
  cases read payload.bytes with
  | error f => exact ⟨rfl, rfl⟩
  | ok d =>
    dsimp only
    cases target.write settings.writeOptions d with
    | error f => exact ⟨rfl, rfl⟩
    | ok bytes => exact ⟨rfl, rfl⟩

/-- A conversion whose input stage succeeds has read a document. -/
theorem exists_of_input (h : (convert settings payload selector).outcome.input = .success) :
    ∃ d, (chooseEncodings payload.bytes selector).1 payload.bytes = .ok d := by
  cases hread : (chooseEncodings payload.bytes selector).1 payload.bytes with
  | ok d => exact ⟨d, rfl⟩
  | error f =>
    obtain ⟨bytes, source⟩ := payload
    rw [input_of_error hread] at h
    generalize f.failureClass = c at h
    cases c <;> cases h

end

/-- Where a conversion with nothing asked for reads its input, it goes like the one that asks for the
    encoding that was chosen: both stages end alike, and the same bytes are rendered.  The one
    exception is XML in UTF-16 without a byte order mark that starts with a zero or with white
    space: it shows no encoding, and is refused as soon as one is asked for. -/
theorem convert_auto_eq_only {settings : Settings} {payload : Payload}
    (h : (convert settings payload .auto).outcome.input = .success) :
    let target := (chooseEncodings payload.bytes .auto).2.1
    target = (if isBinary payload.bytes then .xml else .binary) ∧
    (¬ Xml.IsUnmarked payload.bytes →
      (convert settings payload (.only target)).outcome =
        (convert settings payload .auto).outcome ∧
      (convert settings payload (.only target)).rendered =
        (convert settings payload .auto).rendered) ∧
    (Xml.IsUnmarked payload.bytes → isBinary payload.bytes = false ∧
      recognize? payload.bytes = none ∧
      (convert settings payload (.only target)).outcome = ⟨.formatMismatch, .notAttempted⟩) := by
  obtain ⟨d, hread⟩ := exists_of_input h
  refine ⟨?_, fun hmarked => ?_, fun hunmarked => ?_⟩
  · rw [chooseEncodings]
    split <;> rfl
  · refine convert_congr ?_ rfl
    show readRecognized payload.bytes = _
    rw [readRecognized]
    rw [chooseEncodings_read] at hread ⊢
    cases hbinary : isBinary payload.bytes with
    | true =>
      have hrecognized : recognize? payload.bytes = some .binary := if_pos hbinary
      rw [hrecognized, readAs?, hbinary]
      rfl
    | false =>
      rw [readAs?, hbinary] at hread
      obtain ⟨v, hv⟩ : ∃ v, Xml.read payload.bytes = .ok v := by
        cases hxml : Xml.read payload.bytes with
        | ok v => exact ⟨v, rfl⟩
        | error f =>
          simp only [Bool.false_eq_true, if_false, Option.elim_some, Encoding.read, hxml] at hread
          cases hread
      have hrecognized := (recognize?_of_read hbinary hv).resolve_left hmarked
      rw [hrecognized, readAs?, hbinary]
      rfl
  · have hnone := hunmarked.recognize?_eq_none
    exact ⟨hunmarked.isBinary_eq_false, hnone, outcome_of_unrecognized hnone settings _ _⟩

/-- A document in UTF-16 that starts with the zero of its first unit is converted to a binary list,
    but not if a binary list is asked for. -/
theorem convert_auto_eq_only_big :
    ∃ payload, payload.bytes = Utf16.encodeChars .big "<plist><true/></plist>".toList ∧
      (convert {} payload .auto).outcome = ⟨.success, .success⟩ ∧
      (chooseEncodings payload.bytes .auto).2.1 = .binary ∧
      (convert {} payload (.only .binary)).outcome = ⟨.formatMismatch, .notAttempted⟩ := by
  let payload : Payload := { bytes := Utf16.encodeChars .big "<plist><true/></plist>".toList }
  have houtcome : (convert {} payload .auto).outcome = ⟨.success, .success⟩ := by decide +kernel
  obtain ⟨htarget, -, hrefused⟩ := convert_auto_eq_only (congrArg Outcome.input houtcome)
  have hunmarked : Xml.IsUnmarked payload.bytes := .big _
  obtain ⟨hbinary, -, hrefused⟩ := hrefused hunmarked
  rw [hbinary, if_neg Bool.false_ne_true] at htarget
  rw [htarget] at hrefused
  exact ⟨payload, rfl, houtcome, htarget, hrefused⟩

end PropertyList
