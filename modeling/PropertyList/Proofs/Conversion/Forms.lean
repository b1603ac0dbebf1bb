/-
  PropertyList.Proofs.Conversion.Forms

  One text of XML in UTF-8 and in UTF-16.  A text that names no encoding is read as the same
  document in both byte orders of UTF-16, and in UTF-8 with and without a byte order mark.  UTF-8
  and UTF-16 differ only in three letters, which names have in UTF-16 alone.
-/
import PropertyList.Proofs.Conversion.LeadingBlanks
import PropertyList.Proofs.Xml.Narrowing

namespace PropertyList

variable {t : List Char}

/-! ## Forms -/

/-- How the characters of a text can be written: in UTF-8, perhaps with a byte order mark, and with
    a mark in either byte order of UTF-16. -/
inductive TextForm where
  | plain
  | marked
  | wide (order : ByteOrder)
  deriving DecidableEq

namespace TextForm

/-- The mark in front of the characters. -/
def mark : TextForm → List UInt8
  | plain => []
  | marked => utf8Mark
  | wide .little => [0xFF, 0xFE]
  | wide .big => [0xFE, 0xFF]

/-- The coding of the characters. -/
def coding : TextForm → Xml.Coding
  | wide order => .utf16 order
  | _ => .utf8

/-- The bytes of a text. -/
def bytes (form : TextForm) (t : List Char) : List UInt8 :=
  form.mark ++ form.coding.encodeChars t

theorem isUnicode_coding (form : TextForm) : form.coding.IsUnicode := by
  cases form <;> trivial

end TextForm

/-! ## Recognition -/

/-- A text whose first character, but for white space, is an angle bracket. -/
theorem exists_cons_of_dropWhile (h : (t.dropWhile Xml.isSpace).head? = some '<') :
    ∃ w s, t = w ++ '<' :: s ∧ ∀ c ∈ w, Xml.isSpace c = true := by
  obtain ⟨s, hs⟩ := List.head?_eq_some_iff.mp h
  refine ⟨t.takeWhile Xml.isSpace, s, ?_, fun c hc => ?_⟩
  · rw [← hs, List.takeWhile_append_dropWhile]
  · exact List.mem_takeWhile_imp hc

/-- Such a text is recognized as XML in UTF-8, with and without a mark. -/
theorem recognize?_bracket (h : (t.dropWhile Xml.isSpace).head? = some '<') :
    recognize? (Utf8.encodeChars t) = some .xml ∧
      recognize? (utf8Mark ++ Utf8.encodeChars t) = some .xml := by
  obtain ⟨w, s, rfl, hw⟩ := exists_cons_of_dropWhile h
  have hbracket : Utf8.encodeChars ('<' :: s) = 0x3C :: Utf8.encodeChars s := rfl
  have hblanks := forall_isLeadingBlank hw
  have hplain : recognize? (Utf8.encodeChars (w ++ '<' :: s)) = some .xml := by
    have hbinary : isBinary (0x3C :: Utf8.encodeChars s) = false :=
      isBinary_cons_of_ne (by decide) _
    have hwide : hasWideMark (0x3C :: Utf8.encodeChars s) = false :=
      hasWideMark_cons_of_ne (by decide) (by decide) _
    rw [Utf8.encodeChars_append, hbracket, recognize?_append_of_forall hblanks hbinary hwide]
    exact recognize?_of_first rfl
  have hbinary := isBinary_of_recognize?_of_ne hplain (by decide)
  refine ⟨hplain, ?_⟩
  rw [recognize?_mark hbinary (hasWideMark_encodeChars _), hplain]
  rw [Utf8.encodeChars_append, hbracket, dropLeadingBlanks_append_of_forall hblanks]
  rintro ⟨rest, hrest⟩
  cases hrest

/-- Every form of such a text is recognized as XML. -/
theorem TextForm.recognize?_bytes (h : (t.dropWhile Xml.isSpace).head? = some '<')
    (form : TextForm) : recognize? (form.bytes t) = some .xml := by
  obtain ⟨hplain, hmarked⟩ := recognize?_bracket h
  cases form with
  | plain => exact hplain
  | marked => exact hmarked
  | wide order => cases order <;> rfl

/-- The coding of every form shows in its first bytes. -/
theorem TextForm.detectCoding_bytes (hzero : '\x00' ∉ t)
    (h : (t.dropWhile Xml.isSpace).head? = some '<') (form : TextForm) :
    Xml.detectCoding (form.bytes t) = (form.coding, form.coding.encodeChars t) := by
  cases form with
  | plain =>
    refine Xml.detectCoding_encodeChars (fun hmark => ?_)
      fun hmem => hzero (List.mem_of_mem_take hmem)
    obtain ⟨s, rfl⟩ := List.head?_eq_some_iff.mp hmark
    cases h
  | marked => rfl
  | wide order => cases order <;> rfl

/-! ## Reading -/

/-- A document with the value of XML. -/
def xmlDocument : Except Xml.ReadFault Value → Except ReadFailure Document
  | .ok v => .ok ⟨.only .xml, some (.ofValue v)⟩
  | .error f => .error (.xml f)

/-- What the forms of a text are read as depends only on the alphabet of their coding. -/
theorem TextForm.exists_read_eq (hzero : '\x00' ∉ t)
    (hfirst : (t.dropWhile Xml.isSpace).head? = some '<')
    (hname : Xml.declaredName? (Utf8.encodeChars t) = none) :
    ∃ value : Xml.Alphabet → Except Xml.ReadFault Value,
      Xml.Narrows (·.toOption = none) (Xml.HasWideLetter t) (value .standard) (value .wide) ∧
      (∀ α, value α ≠ .error .unknownCharset) ∧
      ∀ form : TextForm, readRecognized (form.bytes t) = xmlDocument (value form.coding.alphabet) := by
  obtain ⟨found, hsuffix, hfound⟩ :=
    Xml.Source.exists_read_eq (TextForm.detectCoding_bytes hzero hfirst .plain) hname
  refine ⟨fun α => found.elim (.error .malformed) fun r =>
    Xml.readDocument (.ofText α r.1 r.2.1 r.2.2), ?_, fun α => ?_, fun form => ?_⟩
  · cases found with
    | none => exact .refl _
    | some r =>
      obtain ⟨standalone, firstLine, cs⟩ := r
      refine (Xml.readDocument_narrows (.ofText .standard standalone firstLine cs)).mono ?_
      -- a letter that was seen behind the declaration was there from the start
      rintro ⟨c, hc, hletter⟩
      rcases Xml.mem_legalChars hc with hc | rfl
      · exact ⟨c, (hsuffix _ rfl).subset hc, hletter⟩
      · exact absurd hletter (by decide)
  · cases found with
    | none => rintro ⟨⟩
    | some r => exact Xml.readDocument_ne_unknown _
  · have hread := hfound form.coding _ form.isUnicode_coding
      (TextForm.detectCoding_bytes hzero hfirst form)
    have hxml : Encoding.xml.read (form.bytes t) = xmlDocument (Xml.read (form.bytes t)) := by
      rw [Encoding.read]
      cases Xml.read (form.bytes t) <;> rfl
    rw [readRecognized, TextForm.recognize?_bytes hfirst]
    dsimp only
    rw [hxml, Xml.read, hread]
    cases found <;> rfl

/-- A text of XML that names no encoding is read alike with and without a mark in UTF-8, and alike in
    both byte orders of UTF-16.  What is read from it in UTF-8 is read from all of its forms, and
    all of them are read alike unless it has a letter that names have in UTF-16 alone.  Whatever is
    not read is malformed. -/
theorem readRecognized_forms (hzero : '\x00' ∉ t)
    (hfirst : (t.dropWhile Xml.isSpace).head? = some '<')
    (hname : Xml.declaredName? (Utf8.encodeChars t) = none) :
    readRecognized (TextForm.marked.bytes t) = readRecognized (TextForm.plain.bytes t) ∧
    readRecognized ((TextForm.wide .big).bytes t) =
      readRecognized ((TextForm.wide .little).bytes t) ∧
    (∀ d, readRecognized (TextForm.plain.bytes t) = .ok d →
      ∀ form : TextForm, readRecognized (form.bytes t) = .ok d) ∧
    (¬ Xml.HasWideLetter t → ∀ form : TextForm,
      readRecognized (form.bytes t) = readRecognized (TextForm.plain.bytes t)) ∧
    ∀ form : TextForm,
      (∃ d, readRecognized (form.bytes t) = .ok d ∧ d.source = .only .xml) ∨
        ∃ f, readRecognized (form.bytes t) = .error f ∧ f.failureClass = .parse := by
  obtain ⟨value, hnarrows, hknown, hread⟩ := TextForm.exists_read_eq hzero hfirst hname
  have hsame (h : value .standard = value .wide) (form : TextForm) :
      readRecognized (form.bytes t) = readRecognized (TextForm.plain.bytes t) := by
    rw [hread, hread]
    cases form with
    | plain => rfl
    | marked => rfl
    | wide order => exact congrArg xmlDocument h.symm
  refine ⟨?_, ?_, fun d hd form => ?_, fun hletter form => ?_, fun form => ?_⟩
  · rw [hread, hread]
    rfl
  · rw [hread, hread]
    rfl
  · rcases hnarrows with heq | ⟨hnone, -⟩
    · rw [hsame heq, hd]
    · have hstandard : readRecognized (TextForm.plain.bytes t) = xmlDocument (value .standard) :=
        hread .plain
      rw [hstandard] at hd
      cases hvalue : value .standard with
      | ok v =>
        rw [hvalue] at hnone
        cases hnone
      | error f =>
        rw [hvalue] at hd
        cases hd
  · exact hsame (hnarrows.resolve_right fun h => hletter h.2) form
  · rw [hread]
    cases hvalue : value form.coding.alphabet with
    | ok v => exact .inl ⟨_, rfl, rfl⟩
    | error f =>
      refine .inr ⟨_, rfl, ?_⟩
      cases f with
      | unknownCharset => exact absurd hvalue (hknown _)
      | _ => rfl

/-- A text with a name of other letters, in all of its forms. -/
theorem readRecognized_forms_accent :
    let t : List Char := "\n<é><true/></é>".toList
    let d : Document := ⟨.only .xml, some (.ofValue (.bool true))⟩
    '\x00' ∉ t ∧ (t.dropWhile Xml.isSpace).head? = some '<' ∧
      Xml.declaredName? (Utf8.encodeChars t) = none ∧
      ∀ form : TextForm, readRecognized (form.bytes t) = .ok d := by
  intro t d
  have hzero : '\x00' ∉ t := by decide
  have hfirst : (t.dropWhile Xml.isSpace).head? = some '<' := by decide
  have hname : Xml.declaredName? (Utf8.encodeChars t) = none := by decide
  have hplain : readRecognized (TextForm.plain.bytes t) = .ok d := rfl
  obtain ⟨-, -, hall, -, -⟩ := readRecognized_forms hzero hfirst hname
  exact ⟨hzero, hfirst, hname, hall d hplain⟩

/-- A name that is one in UTF-16 and not in UTF-8. -/
theorem readRecognized_forms_differ :
    let t : List Char := "<ª><true/></ª>".toList
    '\x00' ∉ t ∧ (t.dropWhile Xml.isSpace).head? = some '<' ∧
      Xml.declaredName? (Utf8.encodeChars t) = none ∧
      readRecognized (TextForm.plain.bytes t) = .error (.xml .malformed) ∧
      readRecognized ((TextForm.wide .little).bytes t) =
        .ok ⟨.only .xml, some (.ofValue (.bool true))⟩ :=
  ⟨by decide, by decide, by decide, rfl, rfl⟩

end PropertyList
