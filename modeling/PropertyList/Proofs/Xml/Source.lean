/-
  PropertyList.Proofs.Xml.Source

  The characters that a document was written with are those that are read from
  its bytes, as long as they are legal and none of them is a carriage return.
-/
import PropertyList.Xml.Source
import PropertyList.Xml.Writer
import PropertyList.Proofs.Text.Coding

namespace PropertyList.Xml

/-! ## Characters -/

/-- A character that is read as it is written. -/
def IsPlain (c : Char) : Prop := isLegal c = true ∧ c ≠ '\r'

instance (c : Char) : Decidable (IsPlain c) := by unfold IsPlain; infer_instance

theorem nextLegal?_encode {c : Char} (h : IsPlain c) (s : List UInt8) :
    Coding.nextLegal? .utf8 (Utf8.encodeNat c.toNat ++ s) = some (c, s) := by
  have hnext : Coding.next? .utf8 (Utf8.encodeNat c.toNat ++ s) = some (c, s) := by
    show (Utf8.next? (Utf8.encode (.scalar c) ++ s)).bind _ = _
    rw [Utf8.next?_encode]
    rfl
  rw [Coding.nextLegal?, hnext]
  simp only [h.1, Bool.not_true, if_neg Bool.false_ne_true, if_neg h.2]

/-- All characters of a run are read, and nothing is left over. -/
theorem readAll_encodeChars {cs : List Char} (h : ∀ c ∈ cs, IsPlain c) :
    readAll (Coding.nextLegal? .utf8) (Utf8.encodeChars cs).length [] (Utf8.encodeChars cs) =
      (cs, []) := by
  have hne : ∀ c ∈ cs, Utf8.encodeNat c.toNat ≠ [] := fun c _ => Utf8.encodeNat_ne_nil c.toNat
  have hnone : Coding.nextLegal? .utf8 [] = none := rfl
  have hread := readAll_flatMap (fun c hc s => nextLegal?_encode (h c hc) s) hnone
    (length_le_length_flatMap hne) []
  rw [List.append_nil, List.reverse_nil, List.nil_append] at hread
  exact hread

theorem takeChars?_encodeChars (cs : List Char) (h : ∀ c ∈ cs, IsPlain c) (s : List UInt8) :
    takeChars? .utf8 cs.length (Utf8.encodeChars cs ++ s) = some (cs, s) := by
  induction cs with
  | nil => rfl
  | cons c cs ih =>
    have hcons : Utf8.encodeChars (c :: cs) ++ s =
        Utf8.encodeNat c.toNat ++ (Utf8.encodeChars cs ++ s) := List.append_assoc _ _ _
    rw [hcons, List.length_cons, takeChars?, nextLegal?_encode (h c List.mem_cons_self)]
    simp only [Option.bind_eq_bind, Option.bind_some,
      ih fun c hc => h c (List.mem_cons_of_mem _ hc)]

/-- An instruction ends at the first `?>`. -/
theorem takeInstruction?_encodeChars (cs : List Char) (h : ∀ c ∈ cs, IsPlain c) (hend : '>' ∉ cs)
    {fuel : Nat} (hfuel : cs.length + 2 ≤ fuel) (taken : List Char) (s : List UInt8) :
    takeInstruction? .utf8 fuel taken (Utf8.encodeChars (cs ++ ['?', '>']) ++ s) =
      some (taken.reverse ++ cs, s) := by
  have hcons (c : Char) (cs : List Char) : Utf8.encodeChars (c :: cs) ++ s =
      Utf8.encodeNat c.toNat ++ (Utf8.encodeChars cs ++ s) := List.append_assoc _ _ _
  induction cs generalizing fuel taken with
  | nil =>
    obtain ⟨n, rfl⟩ : ∃ n, fuel = n + 2 := ⟨fuel - 2, by simp at hfuel; omega⟩
    rw [List.nil_append, hcons, takeInstruction?, nextLegal?_encode (by decide)]
    simp only [show ¬ ('?' = '>' ∧ taken.head? = some '?') by simp, if_false]
    rw [hcons, takeInstruction?, nextLegal?_encode (by decide)]
    simp only [List.head?_cons, and_self, if_true, List.tail_cons, List.append_nil]
    rfl
  | cons c cs ih =>
    obtain ⟨n, rfl⟩ : ∃ n, fuel = n + 1 := ⟨fuel - 1, by simp at hfuel; omega⟩
    -- a question mark taken before does not matter, as no bracket follows
    have hne : ¬ (c = '>' ∧ taken.head? = some '?') := fun e => hend (e.1 ▸ List.mem_cons_self)
    rw [List.cons_append, hcons, takeInstruction?, nextLegal?_encode (h c List.mem_cons_self)]
    simp only [if_neg hne]
    rw [ih (fun c hc => h c (List.mem_cons_of_mem _ hc)) (fun hc => hend (List.mem_cons_of_mem _ hc))
      (by simp at hfuel; omega)]
    simp

/-! ## Documents -/

/-- What the XML declaration says. -/
def declarationContent : List Char := " version=\"1.0\" encoding=\"UTF-8\"".toList

/-- The XML declaration. -/
def declaration : List Char := "<?xml".toList ++ (declarationContent ++ "?>".toList)

theorem detectCoding_declaration (t : List Char) :
    detectCoding (Utf8.encodeChars (declaration ++ t)) =
      (.utf8, Utf8.encodeChars (declaration ++ t)) := by
  have hfront (s : List Char) :
      Utf8.encodeChars ('<' :: '?' :: s) = 0x3C :: 0x3F :: Utf8.encodeChars s := rfl
  have hdeclaration : declaration ++ t =
      '<' :: '?' :: ("xml".toList ++ (declarationContent ++ "?>".toList) ++ t) := rfl
  rw [hdeclaration, hfront, detectCoding]
  · rfl
  · exact fun s h => absurd h (by decide)

/-- A document as it is read when its characters are those that were written. -/
def Source.ofChars (cs : List Char) : Source := {
  chars := cs, ending := .complete, alphabet := .standard, standalone := false, firstLine := 1 }

/-- What follows the declaration is read as it was written. -/
theorem Source.read_encodeChars {cs : List Char} (h : ∀ c ∈ cs, IsPlain c) :
    Source.read (Utf8.encodeChars (declaration ++ cs)) = .ok (.ofChars cs) := by
  have hsix : Utf8.encodeChars (declaration ++ cs) = Utf8.encodeChars "<?xml ".toList ++
      Utf8.encodeChars (declarationContent.tail ++ "?>".toList ++ cs) := by
    rw [← Utf8.encodeChars_append]
    rfl
  have hstarts : startsDeclaration .utf8 (Utf8.encodeChars (declaration ++ cs)) = true := by
    rw [startsDeclaration, hsix]
    simp only [show (6 : Nat) = "<?xml ".toList.length from rfl,
      takeChars?_encodeChars "<?xml ".toList (forall_of_all (by decide))]
    decide
  have hfive : Utf8.encodeChars (declaration ++ cs) = Utf8.encodeChars "<?xml".toList ++
      (Utf8.encodeChars (declarationContent ++ ['?', '>']) ++ Utf8.encodeChars cs) := by
    rw [← Utf8.encodeChars_append, ← Utf8.encodeChars_append]
    rfl
  have hne : ∀ c ∈ declarationContent ++ ['?', '>'], Utf8.encodeNat c.toNat ≠ [] :=
    fun c _ => Utf8.encodeNat_ne_nil c.toNat
  -- the content of the declaration is shorter than the bytes that are left
  have hfuel : declarationContent.length + 2 ≤
      (Utf8.encodeChars (declarationContent ++ ['?', '>']) ++ Utf8.encodeChars cs).length := by
    rw [List.length_append]
    exact Nat.le_trans (length_le_length_flatMap hne) (Nat.le_add_right _ _)
  have hcontent := takeInstruction?_encodeChars declarationContent
    (forall_of_all (by decide)) (by decide) hfuel [] (Utf8.encodeChars cs)
  -- it names UTF-8, has no line feed, and all behind it is legal
  have hparse : parseDeclaration? declarationContent = some ⟨some "UTF-8".toList, false⟩ := by
    decide
  have hcoding : namedCoding .utf8 "UTF-8".toList = .ok .utf8 := rfl
  have hlines : 1 + declarationContent.count '\n' = 1 := by decide
  have hchars : ofBytes .utf8 false 1 (Utf8.encodeChars cs) = .ofChars cs := by
    unfold ofBytes
    rw [readAll_encodeChars h]
    rfl
  unfold Source.read
  rw [detectCoding_declaration]
  simp only [if_pos hstarts]
  rw [hfive]
  simp only [show (5 : Nat) = "<?xml".toList.length from rfl,
    takeChars?_encodeChars "<?xml".toList (forall_of_all (by decide)), Option.bind_some, hcontent,
    List.reverse_nil, List.nil_append, hparse, hcoding, hlines]
  exact congrArg Except.ok hchars

end PropertyList.Xml
