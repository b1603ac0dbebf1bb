/-
  PropertyList.Proofs.Xml.Prolog

  The prolog that is written is read up to the root element.  Its document type
  declaration names an external part, so there may be other declarations.
-/
import PropertyList.Xml.Prolog
import PropertyList.Xml.Writer
import PropertyList.Proofs.Xml.Source

namespace PropertyList.Xml

/-! ## The document type declaration -/

/-- The public identifier of the document type. -/
def publicId : List Char := "-//Apple//DTD PLIST 1.0//EN".toList

/-- The system identifier of the document type. -/
def systemId : List Char := "http://www.apple.com/DTDs/PropertyList-1.0.dtd".toList

/-- The document type declaration, with the line ends around it. -/
def documentTypeChars : List Char :=
  "\n<!DOCTYPE plist PUBLIC \"".toList ++ (publicId ++ ("\" \"".toList ++
    (systemId ++ "\">\n".toList)))

/-- The tokens of the document type declaration. -/
def documentTypeTokens : List PrologToken := [.declaration "DOCTYPE".toList, .name "plist".toList,
  .name "PUBLIC".toList, .literal publicId, .literal systemId, .close]

theorem documentStart_eq : documentStart = declaration ++ documentTypeChars := by decide +kernel

theorem isPlain_documentTypeChars : ∀ c ∈ documentTypeChars, IsPlain c :=
  forall_of_all (by decide)

variable (root : List Char)

/-- The declaration is cut into its tokens, and the root element is left over. -/
theorem prologTokens_documentType (fuel : Nat) :
    prologTokens .standard true (fuel + 7) [] (documentTypeChars ++ '<' :: 'p' :: root) =
      (documentTypeTokens, some ('<' :: 'p' :: root)) := rfl

theorem documentType_tokens (d : Declarations) :
    documentType .standard d documentTypeTokens.tail = .ok ({ d with incomplete := true }, []) := by
  have hid : isPublicId publicId = true := by decide
  have hsystem : "PUBLIC".toList ≠ "SYSTEM".toList := by decide
  rw [documentTypeTokens, List.tail_cons, documentType]
  simp only [if_neg hsystem, hid, Bool.and_true, decide_true, if_true]
  rfl

/-! ## The prolog -/

/-- Behind the prolog stands the root element, and an entity that nothing declares is no error. -/
theorem readProlog_documentType :
    readProlog (.ofChars (documentTypeChars ++ '<' :: 'p' :: root)) =
      .ok (false, '<' :: 'p' :: root) := by
  generalize hcs : documentTypeChars ++ '<' :: 'p' :: root = cs
  have hfuel : ∃ n, cs.length + 1 = n + 7 := by
    have hlen : 6 ≤ documentTypeChars.length := by decide +kernel
    refine ⟨cs.length - 6, ?_⟩
    rw [← hcs, List.length_append]
    omega
  obtain ⟨n, hn⟩ := hfuel
  -- the tokens of the declaration, on fuel that lasts beyond them
  have htokens : prologTokens .standard true ((Source.ofChars cs).chars.length + 1) []
      (Source.ofChars cs).chars = (documentTypeTokens, some ('<' :: 'p' :: root)) := by
    show prologTokens .standard true (cs.length + 1) [] cs = _
    rw [hn, ← hcs]
    exact prologTokens_documentType root n
  have hdrop : dropMisc documentTypeTokens =
      .declaration "DOCTYPE".toList :: documentTypeTokens.tail := rfl
  have hending : (Source.ofChars cs).ending ≠ .illegal := fun h => nomatch h
  have halphabet : (Source.ofChars cs).alphabet = .standard := rfl
  unfold readProlog
  simp only [ne_eq, hending, not_false_eq_true, decide_true, htokens, hdrop, if_true, halphabet,
    documentType_tokens]
  rfl

end PropertyList.Xml
