/-
  PropertyList.Proofs.LeadingBytes

  The encoding of a payload shows in its leading bytes.  What follows the bytes that
  show it makes no difference, and neither do blanks, or a UTF-8 byte order mark, in
  front of a payload that is text.
-/
import PropertyList.Encoding
import PropertyList.Proofs.Text.Coding

namespace PropertyList

/-- The byte order mark of UTF-8. -/
def utf8Mark : List UInt8 := [0xEF, 0xBB, 0xBF]

variable {bytes rest w : List UInt8} {b : UInt8} {e : Encoding}

/-! ## First bytes -/

/-- The header of a binary list starts with its own letter. -/
theorem isBinary_cons_of_ne (h : b ≠ 0x62) (rest : List UInt8) : isBinary (b :: rest) = false := by
  rw [isBinary, Binary.hasHeader, Bool.eq_false_iff]
  intro hprefix
  obtain ⟨hb, -⟩ := List.cons_prefix_cons.mp (List.isPrefixOf_iff_prefix.mp hprefix)
  exact h hb.symm

theorem hasWideMark_cons_of_ne (hlittle : b ≠ 0xFF) (hbig : b ≠ 0xFE) (rest : List UInt8) :
    hasWideMark (b :: rest) = false := by
  unfold hasWideMark
  split
  · next h => exact absurd (List.cons.inj h).1 hlittle
  · next h => exact absurd (List.cons.inj h).1 hbig
  · rfl

/-- No character is written in UTF-8 with one of the bytes that mark UTF-16. -/
theorem hasWideMark_encodeChars (cs : List Char) : hasWideMark (Utf8.encodeChars cs) = false := by
  cases cs with
  | nil => rfl
  | cons c cs =>
    have hnext : Utf8.next? (Utf8.encodeChars (c :: cs)) = some (.scalar c, Utf8.encodeChars cs) :=
      Utf8.next?_encode (.scalar c) (Utf8.encodeChars cs)
    unfold hasWideMark
    split
    · next h =>
      rw [h] at hnext
      cases hnext
    · next h =>
      rw [h] at hnext
      cases hnext
    · rfl

/-- The mark of UTF-8 is what the character for it is written as. -/
theorem head?_of_utf8Mark {cs : List Char} (h : utf8Mark <+: Utf8.encodeChars cs) :
    cs.head? = some '\uFEFF' := by
  obtain ⟨rest, hrest⟩ := h
  cases cs with
  | nil => cases hrest
  | cons c cs =>
    have hnext : Utf8.next? (Utf8.encodeChars (c :: cs)) = some (.scalar c, Utf8.encodeChars cs) :=
      Utf8.next?_encode (.scalar c) (Utf8.encodeChars cs)
    have hmark : Utf8.encode (.scalar '\uFEFF') = utf8Mark := by decide
    rw [← hrest, ← hmark, Utf8.next?_encode] at hnext
    exact congrArg some (CodePoint.scalar.inj (Prod.mk.inj (Option.some.inj hnext)).1).symm

/-- A blank is not the start of a header, a mark or a document. -/
theorem ne_of_isLeadingBlank (h : isLeadingBlank b = true) :
    b ≠ 0x62 ∧ b ≠ 0xFF ∧ b ≠ 0xFE ∧ b ≠ 0xEF := by
  refine ⟨?_, ?_, ?_, ?_⟩ <;> rintro rfl <;> cases h

/-! ## Blanks and marks -/

/-- Blanks in front of other bytes are dropped. -/
theorem dropLeadingBlanks_append_of_forall (hw : ∀ b ∈ w, isLeadingBlank b = true)
    (rest : List UInt8) : dropLeadingBlanks (w ++ rest) = dropLeadingBlanks rest :=
  List.dropWhile_append_of_pos hw

/-- What follows bytes other than blanks stays. -/
theorem dropLeadingBlanks_append_of_ne_nil (h : dropLeadingBlanks bytes ≠ []) (rest : List UInt8) :
    dropLeadingBlanks (bytes ++ rest) = dropLeadingBlanks bytes ++ rest := by
  have hempty : (bytes.dropWhile isLeadingBlank).isEmpty = false :=
    List.isEmpty_eq_false_iff.mpr h
  rw [dropLeadingBlanks, List.dropWhile_append, hempty, if_neg Bool.false_ne_true]
  rfl

theorem dropMark_mark (rest : List UInt8) : dropMark (utf8Mark ++ rest) = dropLeadingBlanks rest :=
  rfl

/-- Bytes without the mark in front stay as they are. -/
theorem dropMark_of_unmarked (h : ¬ utf8Mark <+: bytes) : dropMark bytes = bytes := by
  unfold dropMark
  split
  · next rest => exact absurd (List.prefix_append utf8Mark rest) h
  · rfl

/-! ## Text -/

/-- Bytes that are no binary list, and not marked as UTF-16, show their encoding behind blanks and
    the mark of UTF-8. -/
theorem recognize?_of_text (hbinary : isBinary bytes = false) (hwide : hasWideMark bytes = false) :
    recognize? bytes = ofFirstByte? (dropMark (dropLeadingBlanks bytes)) := by
  rw [recognize?, hbinary, hwide]
  rfl

theorem recognize?_blank (hb : isLeadingBlank b = true) (rest : List UInt8) :
    recognize? (b :: rest) = ofFirstByte? (dropMark (dropLeadingBlanks (b :: rest))) := by
  obtain ⟨hheader, hlittle, hbig, -⟩ := ne_of_isLeadingBlank hb
  exact recognize?_of_text (isBinary_cons_of_ne hheader rest)
    (hasWideMark_cons_of_ne hlittle hbig rest)

/-- Whatever follows, bytes that show an encoding by their first one still do. -/
theorem ofFirstByte?_append (h : ofFirstByte? bytes = some e) (rest : List UInt8) :
    ofFirstByte? (bytes ++ rest) = some e := by
  unfold ofFirstByte? at h
  split at h
  · exact h
  · exact h
  · exact h
  · cases h

theorem ne_nil_of_ofFirstByte? (h : ofFirstByte? bytes = some e) : bytes ≠ [] := by
  rintro rfl
  cases h

/-- Bytes that show an encoding behind a mark do so whatever follows. -/
theorem ofFirstByte?_dropMark_append (h : ofFirstByte? (dropMark bytes) = some e)
    (rest : List UInt8) : ofFirstByte? (dropMark (bytes ++ rest)) = some e := by
  by_cases hmark : utf8Mark <+: bytes
  · obtain ⟨text, rfl⟩ := hmark
    rw [dropMark_mark] at h
    rw [List.append_assoc, dropMark_mark,
      dropLeadingBlanks_append_of_ne_nil (ne_nil_of_ofFirstByte? h)]
    exact ofFirstByte?_append h rest
  · rw [dropMark_of_unmarked hmark] at h
    -- the first byte is there already, and it does not start the mark
    have hfirst : ¬ utf8Mark <+: bytes ++ rest := by
      rintro ⟨more, hmore⟩
      cases bytes with
      | nil => cases h
      | cons b bytes =>
        obtain rfl : (0xEF : UInt8) = b := (List.cons.inj hmore).1
        cases h
    rw [dropMark_of_unmarked hfirst]
    exact ofFirstByte?_append h rest

/-- The first byte of text that shows an encoding starts neither a header nor a mark of UTF-16. -/
theorem ne_of_ofFirstByte? (h : ofFirstByte? (dropMark (dropLeadingBlanks (b :: rest))) = some e) :
    b ≠ 0x62 ∧ b ≠ 0xFF ∧ b ≠ 0xFE := by
  refine ⟨?_, ?_, ?_⟩ <;> rintro rfl <;> cases h

/-! ## Recognition -/

theorem isBinary_of_recognize?_of_ne (h : recognize? bytes = some e) (he : e ≠ .binary) :
    isBinary bytes = false := by
  rw [Bool.eq_false_iff]
  intro hbinary
  rw [recognize?, if_pos hbinary] at h
  exact he (Option.some.inj h).symm

/-- What follows the bytes that show an encoding makes no difference. -/
theorem recognize?_append (h : recognize? bytes = some e) (rest : List UInt8) :
    recognize? (bytes ++ rest) = some e := by
  cases hbinary : isBinary bytes with
  | true =>
    have hlonger : isBinary (bytes ++ rest) = true := by
      rw [isBinary, Binary.hasHeader, List.isPrefixOf_iff_prefix] at hbinary ⊢
      exact hbinary.trans (List.prefix_append bytes rest)
    rw [recognize?, hbinary] at h
    rw [recognize?, hlonger]
    exact h
  | false =>
    cases hwide : hasWideMark bytes with
    | true =>
      rw [recognize?, hbinary, hwide] at h
      unfold hasWideMark at hwide
      split at hwide
      · exact h
      · exact h
      · cases hwide
    | false =>
      rw [recognize?_of_text hbinary hwide] at h
      cases bytes with
      | nil => cases h
      | cons b bytes =>
        -- the first byte shows an encoding, so it starts neither the header nor a mark of UTF-16
        obtain ⟨hheader, hlittle, hbig⟩ := ne_of_ofFirstByte? h
        have hne : dropLeadingBlanks (b :: bytes) ≠ [] := by
          intro hnil
          rw [hnil] at h
          cases h
        have hlonger : recognize? (b :: bytes ++ rest) =
            ofFirstByte? (dropMark (dropLeadingBlanks (b :: bytes ++ rest))) :=
          recognize?_of_text (isBinary_cons_of_ne hheader (bytes ++ rest))
            (hasWideMark_cons_of_ne hlittle hbig (bytes ++ rest))
        rw [hlonger, dropLeadingBlanks_append_of_ne_nil hne]
        exact ofFirstByte?_dropMark_append h rest

/-- Blanks in front of text make no difference. -/
theorem recognize?_append_of_forall (hw : ∀ b ∈ w, isLeadingBlank b = true)
    (hbinary : isBinary bytes = false) (hwide : hasWideMark bytes = false) :
    recognize? (w ++ bytes) = recognize? bytes := by
  cases w with
  | nil => rfl
  | cons b w =>
    rw [List.cons_append, recognize?_blank (hw b List.mem_cons_self), ← List.cons_append,
      dropLeadingBlanks_append_of_forall hw, recognize?_of_text hbinary hwide]

/-- A mark of UTF-8 in front of text without one makes no difference. -/
theorem recognize?_mark (hbinary : isBinary bytes = false) (hwide : hasWideMark bytes = false)
    (hmark : ¬ utf8Mark <+: dropLeadingBlanks bytes) :
    recognize? (utf8Mark ++ bytes) = recognize? bytes := by
  have hmarked : recognize? (utf8Mark ++ bytes) = ofFirstByte? (dropMark (utf8Mark ++ bytes)) :=
    recognize?_of_text (isBinary_cons_of_ne (by decide) _)
      (hasWideMark_cons_of_ne (by decide) (by decide) _)
  rw [hmarked, dropMark_mark, recognize?_of_text hbinary hwide, dropMark_of_unmarked hmark]

/-- The encoding of bytes shows in the leading ones.  Bytes that show one do so whatever follows
    them; blanks in front of bytes that are no binary list and not marked as UTF-16 do not matter,
    and neither does a mark of UTF-8 between blanks and bytes that have none. -/
theorem recognize?_leading (bytes : List UInt8) :
    (∀ (e : Encoding) (rest : List UInt8), recognize? bytes = some e →
      recognize? (bytes ++ rest) = some e) ∧
    (isBinary bytes = false → hasWideMark bytes = false →
      ∀ w : List UInt8, (∀ b ∈ w, isLeadingBlank b = true) →
        recognize? (w ++ bytes) = recognize? bytes ∧
        (¬ utf8Mark <+: dropLeadingBlanks bytes →
          recognize? (w ++ (utf8Mark ++ bytes)) = recognize? bytes)) := by
  refine ⟨fun e rest h => recognize?_append h rest, fun hbinary hwide w hw => ⟨?_, fun hmark => ?_⟩⟩
  · exact recognize?_append_of_forall hw hbinary hwide
  · have hmarked : isBinary (utf8Mark ++ bytes) = false := isBinary_cons_of_ne (by decide) _
    rw [recognize?_append_of_forall hw hmarked (hasWideMark_cons_of_ne (by decide) (by decide) _)]
    exact recognize?_mark hbinary hwide hmark

/-- An opening bracket behind blanks, then with a mark of UTF-8 between them, and then with more
    bytes behind it. -/
theorem recognize?_leading_bracket :
    let bytes : List UInt8 := [0x0A, 0x5B]
    let w : List UInt8 := [0x20, 0x09, 0x0D, 0x0A]
    recognize? bytes = some .json ∧ isBinary bytes = false ∧ hasWideMark bytes = false ∧
      (∀ b ∈ w, isLeadingBlank b = true) ∧ ¬ utf8Mark <+: dropLeadingBlanks bytes ∧
      recognize? (bytes ++ [0xEF]) = some .json ∧ recognize? (w ++ bytes) = some .json ∧
      recognize? (w ++ (utf8Mark ++ bytes)) = some .json := by
  intro bytes w
  have hjson : recognize? bytes = some .json := by decide
  have hbinary : isBinary bytes = false := by decide
  have hwide : hasWideMark bytes = false := by decide
  have hw : ∀ b ∈ w, isLeadingBlank b = true := List.all_eq_true.mp rfl
  have hmark : ¬ utf8Mark <+: dropLeadingBlanks bytes := by decide
  obtain ⟨hlonger, hblanks⟩ := recognize?_leading bytes
  obtain ⟨hsame, hmarked⟩ := hblanks hbinary hwide w hw
  exact ⟨hjson, hbinary, hwide, hw, hmark, hlonger .json [0xEF] hjson, hsame.trans hjson,
    (hmarked hmark).trans hjson⟩

end PropertyList
