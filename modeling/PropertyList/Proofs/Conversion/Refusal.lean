/-
  PropertyList.Proofs.Conversion.Refusal

  How reading ends for bytes of any kind.  A payload that is refused is malformed, but
  for four faults: a binary list without its header, containers that nest too deeply in
  a binary list or in JSON, and XML that declares an encoding of an unknown name.
-/
import PropertyList.Conversion
import PropertyList.Proofs.Binary.Nesting
import PropertyList.Proofs.Json.Nesting

namespace PropertyList

namespace Xml

/-! ## Declared encodings -/

/-- The name of the encoding in the declaration that a document starts with. -/
def declaredName? (bytes : List UInt8) : Option (List Char) :=
  let (k, rest) := detectCoding bytes
  if startsDeclaration k rest then
    ((takeChars? k 5 rest).bind fun (_, s) => takeInstruction? k s.length [] s).bind
      fun (content, _) => (parseDeclaration? content).bind Declaration.encoding
  else none

/-- A name of neither one of the codings that are built in nor a set of characters. -/
def IsUnknown (name : List Char) : Prop :=
  String.ofList (name.map Char.toUpper) ∉
    ["UTF-8", "ISO-8859-1", "US-ASCII", "UTF-16", "UTF-16BE", "UTF-16LE"] ∧
  Charset.named? name = none

/-- Only the name decides whether a coding is unknown. -/
theorem namedCoding_eq_unknown_iff {k : Coding} {name : List Char} :
    namedCoding k name = .error .unknownCharset ↔ IsUnknown name := by
  unfold namedCoding IsUnknown
  generalize String.ofList (name.map Char.toUpper) = upper
  simp only [List.mem_cons, List.not_mem_nil, or_false, not_or]
  constructor
  · intro h
    -- a coding that is built in may only be refused as malformed
    split at h
    · split at h <;> cases h
    split at h
    · split at h <;> cases h
    split at h
    · split at h <;> cases h
    split at h
    · split at h <;> cases h
    split at h
    · split at h
      · split at h <;> cases h
      · cases h
    split at h
    · split at h
      · split at h <;> cases h
      · cases h
    split at h
    · next h1 h2 h3 h4 h5 h6 _ hname => exact ⟨⟨h1, h2, h3, h4, h5, h6⟩, hname⟩
    · split at h <;> cases h
  · rintro ⟨⟨h1, h2, h3, h4, h5, h6⟩, hname⟩
    simp only [if_neg h1, if_neg h2, if_neg h3, if_neg h4, if_neg h5, if_neg h6, hname]

theorem source_read_eq_unknown_iff {bytes : List UInt8} :
    Source.read bytes = .error .unknownCharset ↔
      ∃ name, declaredName? bytes = some name ∧ IsUnknown name := by
  rw [Source.read, declaredName?]
  generalize detectCoding bytes = detected
  obtain ⟨k, rest⟩ := detected
  dsimp only
  split
  · generalize (takeChars? k 5 rest).bind _ = taken
    cases taken with
    | none => simp
    | some taken =>
      obtain ⟨content, after⟩ := taken
      simp only [Option.bind_some]
      cases parseDeclaration? content with
      | none => simp
      | some d =>
        simp only [Option.bind_some]
        cases d.encoding with
        | none => exact iff_of_false (by rintro ⟨⟩) (by rintro ⟨name, ⟨⟩, -⟩)
        | some name =>
          simp only [Option.some.injEq, exists_eq_left']
          rw [← namedCoding_eq_unknown_iff (k := k)]
          cases namedCoding k name with
          | ok other => exact iff_of_false (by rintro ⟨⟩) (by rintro ⟨⟩)
          | error f =>
            cases f with
            | malformed => exact iff_of_false (by rintro ⟨⟩) (by rintro ⟨⟩)
            | unknownCharset => exact iff_of_true rfl rfl
  · exact iff_of_false (by rintro ⟨⟩) (by rintro ⟨name, ⟨⟩, -⟩)

theorem readDocument_ne_unknown (src : Source) : readDocument src ≠ .error .unknownCharset := by
  intro h
  rw [readDocument] at h
  generalize Event.ofSource src = parsed at h
  obtain ⟨events, fault⟩ := parsed
  rcases error_cases_of_bind h with hevents | ⟨b, -, h⟩
  · obtain ⟨done, e, rest, b, -, -, hstep⟩ := exists_of_foldlM_eq_error hevents
    rw [Builder.step] at hstep
    split at hstep <;> cases hstep
  · split at h
    · next f _ => cases f <;> cases h
    · cases h
    · cases h

/-- The encoding of a document is unknown if the name that it declares is. -/
theorem read_eq_unknown_iff {bytes : List UInt8} : Xml.read bytes = .error .unknownCharset ↔
    ∃ name, declaredName? bytes = some name ∧ IsUnknown name := by
  rw [← source_read_eq_unknown_iff, Xml.read]
  cases Source.read bytes with
  | ok src => exact iff_of_false (readDocument_ne_unknown src) (by rintro ⟨⟩)
  | error f => cases f <;> simp

end Xml

/-! ## Refusals -/

/-- Why bytes are refused in an encoding, by the class of the failure. -/
inductive Refuses (bytes : List UInt8) : Encoding → FailureClass → Prop where
  | malformed (e : Encoding) : Refuses bytes e .parse
  | header (h : isBinary bytes = false) : Refuses bytes .binary .format
  | binary (h : Binary.Nests 320 bytes) : Refuses bytes .binary .general
  | json (h : Json.Nests (Json.depthLimit + 1) bytes) : Refuses bytes .json .general
  | charset {name : List Char} (h : Xml.declaredName? bytes = some name)
      (hname : Xml.IsUnknown name) : Refuses bytes .xml .charset

section

variable {bytes : List UInt8} {e : Encoding} {f : ReadFailure}

theorem refuses_of_read (h : e.read bytes = .error f) : Refuses bytes e f.failureClass := by
  cases e with
  | binary =>
    rw [Encoding.read] at h
    split at h
    · split at h
      · cases h
      · next fault hread =>
        obtain rfl := Except.error.inj h
        cases fault with
        | malformed => exact .malformed _
        | tooDeep => exact .binary (Binary.nests_of_read hread)
    · next hheader =>
      obtain rfl := Except.error.inj h
      exact .header (Bool.eq_false_iff.mpr hheader)
  | xml =>
    rw [Encoding.read] at h
    split at h
    · cases h
    · next fault hread =>
      obtain rfl := Except.error.inj h
      cases fault with
      | unknownCharset =>
        -- this fault alone depends on what the declaration says
        obtain ⟨name, hname, hunknown⟩ := Xml.read_eq_unknown_iff.mp hread
        exact .charset hname hunknown
      | _ => exact .malformed _
  | json =>
    rw [Encoding.read] at h
    split at h
    · cases h
    · next fault hread =>
      obtain rfl := Except.error.inj h
      cases fault with
      | tooDeep => exact .json (Json.nests_of_read hread)
      | _ => exact .malformed _

theorem binary_read_of_no_header (h : isBinary bytes = false) :
    Encoding.binary.read bytes = .error .noHeader := by
  rw [Encoding.read]
  exact if_neg (Bool.eq_false_iff.mp h)

/-! ## Conversions -/

/-- The encoding in which a conversion reads bytes, if they show one. -/
def readAs? (bytes : List UInt8) : Selector → Option Encoding
  | .auto => some (if isBinary bytes then .binary else .xml)
  | .only _ => recognize? bytes

/-- A conversion reads bytes in their encoding, or refuses them as bytes without one. -/
theorem chooseEncodings_read (bytes : List UInt8) (selector : Selector) :
    (chooseEncodings bytes selector).1 bytes =
      (readAs? bytes selector).elim (.error .unrecognized) fun e => e.read bytes := by
  cases selector with
  | auto =>
    rw [chooseEncodings, readAs?]
    split <;> rfl
  | only e =>
    show readRecognized bytes = _
    rw [readRecognized, readAs?]
    cases recognize? bytes <;> rfl

theorem input_of_error {settings : Settings} {source : String} {selector : Selector}
    (h : (chooseEncodings bytes selector).1 bytes = .error f) :
    (convert settings ⟨bytes, source⟩ selector).outcome.input = .ofFailure f.failureClass := by
  rw [convert]
  generalize chooseEncodings bytes selector = chosen at h
  obtain ⟨read, target, messages⟩ := chosen
  simp only [show read bytes = .error f from h]

theorem input_of_ok {settings : Settings} {source : String} {selector : Selector} {d : Document}
    (h : (chooseEncodings bytes selector).1 bytes = .ok d) :
    (convert settings ⟨bytes, source⟩ selector).outcome.input = .success := by
  rw [convert]
  generalize chooseEncodings bytes selector = chosen at h
  obtain ⟨read, target, messages⟩ := chosen
  simp only [show read bytes = .ok d from h]
  split <;> rfl

end

/-- Bytes of any kind are read, or refused for a reason that fits the class of the failure; a
    binary list without its header is always refused as that.  So the input stage of a conversion
    is only an unknown failure if containers nest too deeply in the payload, or if it is XML that
    declares an encoding of an unknown name. -/
theorem read_refusal (bytes : List UInt8) :
    (∀ (e : Encoding) (f : ReadFailure), e.read bytes = .error f →
      Refuses bytes e f.failureClass) ∧
    (isBinary bytes = false → Encoding.binary.read bytes = .error .noHeader) ∧
    ∀ (settings : Settings) (source : String) (selector : Selector),
      (convert settings ⟨bytes, source⟩ selector).outcome.input = .unknownFailure →
      ∃ e, readAs? bytes selector = some e ∧
        (Refuses bytes e .general ∨ Refuses bytes e .charset) := by
  refine ⟨fun e f => refuses_of_read, binary_read_of_no_header, ?_⟩
  intro settings source selector hinput
  have hchosen := chooseEncodings_read bytes selector
  cases hread : (chooseEncodings bytes selector).1 bytes with
  | ok d =>
    rw [input_of_ok hread] at hinput
    cases hinput
  | error f =>
    rw [input_of_error hread] at hinput
    rw [hread] at hchosen
    cases hreader : readAs? bytes selector with
    | none =>
      rw [hreader] at hchosen
      obtain rfl := Except.error.inj hchosen
      cases hinput
    | some e =>
      rw [hreader] at hchosen
      have hrefuses := refuses_of_read hchosen.symm
      generalize f.failureClass = c at hinput hrefuses
      refine ⟨e, rfl, ?_⟩
      cases hrefuses with
      | malformed => cases hinput
      | header => cases hinput
      | binary h => exact .inl (.binary h)
      | json h => exact .inl (.json h)
      | charset h hname => exact .inr (.charset h hname)

/-- A document that declares an encoding of an unknown name is refused as such. -/
theorem read_refusal_charset :
    ∃ bytes, bytes = "<?xml version=\"1.0\" encoding=\"foo\"?><plist/>".toUTF8.toList ∧
      Encoding.xml.read bytes = .error (.xml .unknownCharset) ∧ Refuses bytes .xml .charset ∧
      (convert {} ⟨bytes, Settings.standardStream⟩ .auto).outcome =
        ⟨.unknownFailure, .notAttempted⟩ := by
  let bytes := "<?xml version=\"1.0\" encoding=\"foo\"?><plist/>".toUTF8.toList
  have hname : Xml.declaredName? bytes = some "foo".toList := by decide +kernel
  have hunknown : Xml.IsUnknown "foo".toList :=
    ⟨by decide +kernel, Option.isNone_iff_eq_none.mp (by decide +kernel)⟩
  have hread : Encoding.xml.read bytes = .error (.xml .unknownCharset) := by
    rw [Encoding.read]
    simp only [Xml.read_eq_unknown_iff.mpr ⟨_, hname, hunknown⟩]
  exact ⟨bytes, rfl, hread, (read_refusal bytes).1 .xml _ hread, by decide +kernel⟩

end PropertyList
