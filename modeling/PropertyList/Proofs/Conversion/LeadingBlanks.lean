/-
  PropertyList.Proofs.Conversion.LeadingBlanks

  White space in front of a payload in UTF-8.  It is skipped when the encoding is recognized, and
  the payload is read with it: JSON has white space in front of a value, and XML in front of its
  prolog, but not in front of an XML declaration.
-/
import PropertyList.Proofs.Json.Acceptance
import PropertyList.Proofs.Json.Reading
import PropertyList.Proofs.Recognition
import PropertyList.Proofs.Xml.Blanks

namespace PropertyList

variable {w cs : List Char}

/-! ## JSON -/

namespace Json

theorem isBlanks_of_isSpace (hw : ∀ c ∈ w, Xml.isSpace c = true) : IsBlanks w := by
  intro c hc
  rcases Xml.isSpace_iff.mp (hw c hc) with rfl | rfl | rfl | rfl <;> decide

/-- White space in front of a text makes no difference to its value. -/
theorem read_blanks {v : Value} (hmark : cs.head? ≠ some '\uFEFF') (hzero : '\x00' ∉ cs.take 2)
    (hw : ∀ c ∈ w, Xml.isSpace c = true) (h : read (Utf8.encodeChars cs) = .ok v) :
    read (Utf8.encodeChars (w ++ cs)) = .ok v := by
  obtain ⟨text, htext, hrun⟩ := exists_run_of_read h
  rw [decodeText?_encodeChars hzero hmark] at htext
  obtain rfl := Option.some.inj htext
  obtain ⟨hmark', hzero'⟩ := Xml.isUnmarked_blanks hw hmark hzero
  have hblanks : State.runText ⟨[], .value⟩ (Text.ofChars (w ++ cs)) = .ok v := by
    rw [State.runText_blanks _ (isBlanks_of_isSpace hw)]
    exact hrun
  rw [read, decodeText?_encodeChars hzero' hmark']
  show readText (Text.ofChars (w ++ cs)) = .ok v
  rw [readText_eq, hblanks]

end Json

/-! ## Recognition -/

theorem forall_isLeadingBlank (hw : ∀ c ∈ w, Xml.isSpace c = true) :
    ∀ b ∈ Utf8.encodeChars w, isLeadingBlank b = true := by
  intro b hb
  obtain ⟨c, hc, hbc⟩ := List.mem_flatMap.mp hb
  rcases Xml.isSpace_iff.mp (hw c hc) with rfl | rfl | rfl | rfl
  all_goals
    rw [List.mem_singleton.mp hbc]
    rfl

/-- White space in front of a payload does not change what encoding it shows. -/
theorem recognize?_blanks (hbinary : isBinary (Utf8.encodeChars cs) = false)
    (hw : ∀ c ∈ w, Xml.isSpace c = true) :
    recognize? (Utf8.encodeChars (w ++ cs)) = recognize? (Utf8.encodeChars cs) := by
  rw [Utf8.encodeChars_append]
  exact recognize?_append_of_forall (forall_isLeadingBlank hw) hbinary (hasWideMark_encodeChars cs)

/-- A document with a declaration is recognized as XML. -/
theorem recognize?_of_declaration
    (h : Xml.startsDeclaration .utf8 (Utf8.encodeChars cs) = true) :
    recognize? (Utf8.encodeChars cs) = some .xml := by
  obtain ⟨s, rfl⟩ := Xml.exists_cons_of_declaration h
  exact recognize?_of_first rfl

/-! ## Reading -/

/-- A document comes from the encoding that it was read in. -/
theorem Encoding.source_of_read {e : Encoding} {bytes : List UInt8} {d : Document}
    (h : e.read bytes = .ok d) : d.source = .only e := by
  cases e with
  | binary =>
    rw [read] at h
    split at h
    · split at h
      · obtain rfl := Except.ok.inj h
        rfl
      · cases h
    · cases h
  | xml =>
    obtain ⟨v, -, rfl⟩ := xml_read_eq_ok_iff.mp h
    rfl
  | json =>
    rw [read] at h
    split at h
    · obtain rfl := Except.ok.inj h
      rfl
    · cases h

theorem exists_of_readRecognized {bytes : List UInt8} {d : Document}
    (h : readRecognized bytes = .ok d) : ∃ e, recognize? bytes = some e ∧ e.read bytes = .ok d := by
  rw [readRecognized] at h
  split at h
  · next e he => exact ⟨e, he, h⟩
  · cases h

/-- White space in front of XML or JSON in UTF-8 makes no difference, except in front of an XML
    declaration, where the payload is malformed.  UTF-8 has no byte order mark here, and no zero
    among its first two characters, for which it would be taken for UTF-16 or UTF-32. -/
theorem readRecognized_blanks {cs w : List Char} {d : Document} (hmark : cs.head? ≠ some '\uFEFF')
    (hzero : '\x00' ∉ cs.take 2) (hw : ∀ c ∈ w, Xml.isSpace c = true)
    (hread : readRecognized (Utf8.encodeChars cs) = .ok d) (hsource : d.source ≠ .only .binary) :
    (Xml.startsDeclaration .utf8 (Utf8.encodeChars cs) = false →
      readRecognized (Utf8.encodeChars (w ++ cs)) = .ok d) ∧
    (Xml.startsDeclaration .utf8 (Utf8.encodeChars cs) = true → w ≠ [] →
      ∃ f, readRecognized (Utf8.encodeChars (w ++ cs)) = .error f ∧ f.failureClass = .parse) := by
  obtain ⟨e, he, hed⟩ := exists_of_readRecognized hread
  have hsame : d.source = .only e := Encoding.source_of_read hed
  have hbinary : isBinary (Utf8.encodeChars cs) = false :=
    isBinary_of_recognize?_of_ne he fun h => hsource (hsame.trans (congrArg Selector.only h))
  have hblanks : readRecognized (Utf8.encodeChars (w ++ cs)) =
      e.read (Utf8.encodeChars (w ++ cs)) := by
    rw [readRecognized, recognize?_blanks hbinary hw, he]
  rw [hblanks]
  cases e with
  | binary => exact absurd hsame hsource
  | xml =>
    obtain ⟨hplain, hdeclared⟩ := Xml.read_blanks hmark hzero hw
    constructor
    · intro hstarts
      obtain ⟨v, hv, rfl⟩ := Encoding.xml_read_eq_ok_iff.mp hed
      refine Encoding.xml_read_eq_ok_iff.mpr ⟨v, ?_, rfl⟩
      rw [← Xml.toOption_eq_some_iff, hplain hstarts, Xml.toOption_eq_some_iff, hv]
    · intro hstarts hne
      refine ⟨.xml .malformed, ?_, rfl⟩
      rw [Encoding.read]
      simp only [hdeclared hstarts hne]
  | json =>
    constructor
    · intro _
      cases hv : Json.read (Utf8.encodeChars cs) with
      | ok v =>
        rw [Encoding.json_read_of_ok hv] at hed
        rw [Encoding.json_read_of_ok (Json.read_blanks hmark hzero hw hv)]
        exact hed
      | error f =>
        rw [Encoding.json_read_of_error hv] at hed
        cases hed
    · intro hstarts _
      rw [recognize?_of_declaration hstarts] at he
      cases he

/-- A document that starts with a line feed, and one with a declaration, behind a carriage
    return. -/
theorem readRecognized_blanks_return :
    let d : Document := ⟨.only .xml, some (.ofValue (.bool true))⟩
    let w : List Char := " \t\r".toList
    let plain : List Char := "\n<plist><true/></plist>".toList
    let declared : List Char := "<?xml version=\"1.0\"?><plist><true/></plist>".toList
    (readRecognized (Utf8.encodeChars plain) = .ok d ∧
      readRecognized (Utf8.encodeChars (w ++ plain)) = .ok d) ∧
    readRecognized (Utf8.encodeChars declared) = .ok d ∧
      ∃ f, readRecognized (Utf8.encodeChars (w ++ declared)) = .error f ∧
        f.failureClass = .parse := by
  intro d w plain declared
  have hw : ∀ c ∈ w, Xml.isSpace c = true := List.all_eq_true.mp rfl
  have hplain : readRecognized (Utf8.encodeChars plain) = .ok d := rfl
  have hdeclared : readRecognized (Utf8.encodeChars declared) = .ok d := rfl
  have hsource : d.source ≠ .only .binary := by rintro ⟨⟩
  refine ⟨⟨hplain, ?_⟩, hdeclared, ?_⟩
  · exact (readRecognized_blanks (by decide) (by decide) hw hplain hsource).1 (by decide)
  · exact (readRecognized_blanks (by decide) (by decide) hw hdeclared hsource).2 (by decide)
      (by decide)

/-- A space in front of an XML declaration, and in front of JSON whose second character is
    numbered zero, so that it is taken for UTF-16. -/
theorem readRecognized_space_fails :
    let declared : List Char := "<?xml version=\"1.0\"?><plist><true/></plist>".toList
    let zeros : List Char := ['[', '\x00', ']', '\x00']
    (readRecognized (Utf8.encodeChars declared) =
        .ok ⟨.only .xml, some (.ofValue (.bool true))⟩ ∧
      readRecognized (Utf8.encodeChars (' ' :: declared)) = .error (.xml .malformed)) ∧
    readRecognized (Utf8.encodeChars zeros) = .ok ⟨.only .json, some (.ofValue (.array []))⟩ ∧
      ∃ f, readRecognized (Utf8.encodeChars (' ' :: zeros)) = .error f ∧
        f.failureClass = .parse :=
  ⟨⟨rfl, rfl⟩, rfl, _, rfl, rfl⟩

end PropertyList
