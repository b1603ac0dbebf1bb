/-
  PropertyList.Proofs.Xml.Blanks

  White space in front of XML.  In front of a document without a declaration it makes no
  difference: the prolog is read from the first character that is none.  A declaration can only
  stand at the very start, so a document that has one is malformed behind white space.
-/
import PropertyList.Proofs.LeadingBytes
import PropertyList.Proofs.Xml.FirstBytes
import PropertyList.Proofs.Xml.Structure
import PropertyList.Proofs.Xml.Suffix
import PropertyList.Proofs.Xml.Unicode

namespace PropertyList.Xml

variable {c : Char} {w cs : List Char}

/-! ## Legal characters -/

theorem isLegal_of_isSpace (hc : isSpace c = true) : isLegal c = true := by
  rcases isSpace_iff.mp hc with rfl | rfl | rfl | rfl <;> decide

/-- White space is dropped in the same way whether a line break is one character or two. -/
theorem dropWhile_legalChars_cons (hc : isSpace c = true) (s : List Char) :
    (legalChars (c :: s)).1.dropWhile isSpace = (legalChars s).1.dropWhile isSpace ∧
      (legalChars (c :: s)).2 = (legalChars s).2 := by
  have hlegal := isLegal_of_isSpace hc
  by_cases hreturn : c = '\r'
  · subst hreturn
    by_cases hhead : s.head? = some '\n'
    · -- the line feed belongs to the carriage return in front of it
      obtain ⟨u, rfl⟩ := List.head?_eq_some_iff.mp hhead
      have hpair : nextChar? ('\r' :: '\n' :: u) = some ('\n', u) := rfl
      have hfeed : nextChar? ('\n' :: u) = some ('\n', u) := rfl
      rw [legalChars_of_some hpair, legalChars_of_some hfeed]
      exact ⟨rfl, rfl⟩
    · have hnext : nextChar? ('\r' :: s) = some ('\n', s) := by
        rw [nextChar?, if_neg hhead]
        rfl
      rw [legalChars_of_some hnext]
      exact ⟨rfl, rfl⟩
  · have hnext : nextChar? (c :: s) = some (c, s) := by
      rw [nextChar?, hlegal, if_neg hreturn]
      rfl
    rw [legalChars_of_some hnext]
    exact ⟨List.dropWhile_cons_of_pos hc, rfl⟩

theorem dropWhile_legalChars_append (hw : ∀ c ∈ w, isSpace c = true) (cs : List Char) :
    (legalChars (w ++ cs)).1.dropWhile isSpace = (legalChars cs).1.dropWhile isSpace ∧
      (legalChars (w ++ cs)).2 = (legalChars cs).2 := by
  induction w with
  | nil => exact ⟨rfl, rfl⟩
  | cons c w ih =>
    obtain ⟨hc, hw⟩ := List.forall_mem_cons.mp hw
    obtain ⟨hchars, hrest⟩ := dropWhile_legalChars_cons hc (w ++ cs)
    obtain ⟨hchars', hrest'⟩ := ih hw
    exact ⟨hchars.trans hchars', hrest.trans hrest'⟩

/-! ## Documents -/

/-- The prolog starts behind the white space in front of it. -/
theorem readProlog_congr {src src' : Source}
    (hchars : src.chars.dropWhile isSpace = src'.chars.dropWhile isSpace)
    (hending : src.ending = src'.ending) (halphabet : src.alphabet = src'.alphabet)
    (hstandalone : src.standalone = src'.standalone) : readProlog src = readProlog src' := by
  rw [readProlog, readProlog, hending, halphabet, hstandalone,
    prologTokens_congr [] hchars (Nat.lt_succ_self _) (Nat.lt_succ_self _)]

/-- The value of a document stays the same behind white space. -/
theorem toOption_readDocument_blanks (hw : ∀ c ∈ w, isSpace c = true) (α : Alphabet)
    (standalone : Bool) (firstLine : Nat) (cs : List Char) :
    (readDocument (.ofText α standalone firstLine (w ++ cs))).toOption =
      (readDocument (.ofText α standalone firstLine cs)).toOption := by
  obtain ⟨hchars, hrest⟩ := dropWhile_legalChars_append hw cs
  have hending : (Source.ofText α standalone firstLine (w ++ cs)).ending =
      (Source.ofText α standalone firstLine cs).ending := by
    unfold Source.ofText
    rw [hrest]
  have hprolog : readProlog (.ofText α standalone firstLine (w ++ cs)) =
      readProlog (.ofText α standalone firstLine cs) := readProlog_congr hchars hending rfl rfl
  rw [toOption_readDocument, toOption_readDocument, Event.ofSource, Event.ofSource, hprolog,
    hending]
  rfl

/-! ## Declarations -/

/-- The characters that are taken off the front are the first legal ones. -/
theorem exists_legalChars_eq {n : Nat} {front : List Char} {rest : List UInt8}
    (h : takeChars? .utf8 n (Utf8.encodeChars cs) = some (front, rest)) :
    front.length = n ∧ ∃ more, (legalChars cs).1 = front ++ more := by
  induction n generalizing cs front with
  | zero =>
    obtain ⟨rfl, -⟩ := Prod.mk.inj (Option.some.inj h)
    exact ⟨rfl, _, rfl⟩
  | succ n ih =>
    have hnext : Coding.nextLegal? .utf8 (Utf8.encodeChars cs) = Coding.leaves .utf8 (nextChar? cs) :=
      nextLegal?_encodeChars (k := .utf8) trivial cs
    rw [takeChars?, hnext] at h
    obtain ⟨⟨c, s⟩, hc, h⟩ := Option.bind_eq_some_iff.mp h
    obtain ⟨⟨c', t⟩, hchar, hct⟩ := Option.map_eq_some_iff.mp hc
    obtain ⟨rfl, rfl⟩ := Prod.mk.inj hct
    obtain ⟨⟨front', u⟩, hfront, h⟩ := Option.bind_eq_some_iff.mp h
    obtain ⟨rfl, rfl⟩ := Prod.mk.inj (Option.some.inj h)
    have hbehind : takeChars? .utf8 n (Utf8.encodeChars t) = some (front', u) := hfront
    obtain ⟨hlength, more, hmore⟩ := ih hbehind
    refine ⟨congrArg Nat.succ hlength, more, ?_⟩
    rw [legalChars_of_some hchar, hmore]
    rfl

/-- The characters of a document with a declaration. -/
theorem exists_declaration_eq (h : startsDeclaration .utf8 (Utf8.encodeChars cs) = true) :
    ∃ c more, (legalChars cs).1 = "<?xml".toList ++ c :: more ∧ (isSpace c = true ∨ c = '?') := by
  rw [startsDeclaration] at h
  split at h
  · next front rest hfront =>
    obtain ⟨hlength, more, hmore⟩ := exists_legalChars_eq hfront
    rw [Bool.and_eq_true, decide_eq_true_eq] at h
    obtain ⟨hxml, hlast⟩ := h
    have hne : front ≠ [] := by
      rintro rfl
      cases hlength
    have hfive : front.dropLast = "<?xml".toList := by
      rw [List.dropLast_eq_take, hlength, ← hxml]
    -- the sixth character ends the name of the declaration
    refine ⟨front.getLast hne, more, ?_, ?_⟩
    · rw [hmore, ← hfive, ← List.singleton_append, ← List.append_assoc,
        List.dropLast_append_getLast hne]
    · rw [List.getLast?_eq_some_getLast hne] at hlast
      simpa using hlast
  · cases h

/-- A document with a declaration starts with a bracket, and not with white space. -/
theorem exists_cons_of_declaration (h : startsDeclaration .utf8 (Utf8.encodeChars cs) = true) :
    ∃ s, cs = '<' :: s := by
  obtain ⟨c, more, hmore, -⟩ := exists_declaration_eq h
  cases hnext : nextChar? cs with
  | none =>
    rw [legalChars_of_none hnext] at hmore
    cases hmore
  | some next =>
    obtain ⟨d, t⟩ := next
    rw [legalChars_of_some hnext] at hmore
    obtain rfl : d = '<' := (List.cons.inj hmore).1
    cases cs with
    | nil => cases hnext
    | cons a s =>
      rw [nextChar?] at hnext
      split at hnext
      · cases hnext
      split at hnext
      · cases hnext
      · obtain ⟨rfl, -⟩ := Prod.mk.inj (Option.some.inj hnext)
        exact ⟨s, rfl⟩

/-- A declaration can only stand at the start, and elsewhere is no instruction either. -/
theorem readProlog_of_declaration {src : Source} {more : List Char}
    (hchars : src.chars.dropWhile isSpace = "<?xml".toList ++ c :: more)
    (hc : isSpace c = true ∨ c = '?') (halphabet : src.alphabet = .standard) :
    readProlog src = .error .malformed := by
  have hname : takeName? .standard ("xml".toList ++ c :: more) =
      some ("xml".toList, c :: more) := by
    refine takeName?_append (by decide) fun d hd => ?_
    obtain rfl := Option.some.inj hd
    rcases hc with hc | rfl
    · rcases isSpace_iff.mp hc with rfl | rfl | rfl | rfl <;> decide
    · decide
  have hinstruction : dropInstruction? .standard ("xml".toList ++ c :: more) = none := by
    rw [dropInstruction?, hname]
    exact if_pos (by decide)
  have htoken (atEnd : Bool) :
      takePrologToken? .standard atEnd '<' ('?' :: ("xml".toList ++ c :: more)) = none := by
    show (dropInstruction? .standard _).map _ = none
    rw [hinstruction]
    rfl
  -- so there is neither a token nor the root element
  have htokens (atEnd : Bool) (fuel : Nat) :
      prologTokens .standard atEnd (fuel + 1) [] src.chars = ([], none) := by
    have hopen : src.chars.dropWhile isSpace = '<' :: ('?' :: ("xml".toList ++ c :: more)) := hchars
    rw [prologTokens, hopen]
    dsimp only
    rw [htoken]
    rfl
  rw [readProlog, halphabet]
  simp only [htokens]
  rfl

/-- A document with a declaration cannot be read behind white space. -/
theorem readDocument_of_declaration (hw : ∀ c ∈ w, isSpace c = true)
    (h : startsDeclaration .utf8 (Utf8.encodeChars cs) = true) (standalone : Bool)
    (firstLine : Nat) :
    readDocument (.ofText .standard standalone firstLine (w ++ cs)) = .error .malformed := by
  obtain ⟨c, more, hmore, hc⟩ := exists_declaration_eq h
  have hchars : (legalChars (w ++ cs)).1.dropWhile isSpace = "<?xml".toList ++ c :: more := by
    rw [(dropWhile_legalChars_append hw cs).1, hmore]
    rfl
  have hprolog : readProlog (.ofText .standard standalone firstLine (w ++ cs)) =
      .error .malformed := readProlog_of_declaration hchars hc rfl
  rw [readDocument, Event.ofSource, hprolog]
  rfl

/-! ## The first bytes -/

/-- The bytes of characters are taken for UTF-8, if there is no mark and neither of the first two
    looks like a half of a unit of UTF-16. -/
theorem detectCoding_encodeChars (hmark : cs.head? ≠ some '\uFEFF') (hzero : '\x00' ∉ cs.take 2) :
    detectCoding (Utf8.encodeChars cs) = (.utf8, Utf8.encodeChars cs) := by
  have hwide := hasWideMark_encodeChars cs
  have hne := Utf8.ne_zero_of_mem_take_encodeChars hzero
  have hprefix : ¬ utf8Mark <+: Utf8.encodeChars cs := fun h => hmark (head?_of_utf8Mark h)
  generalize Utf8.encodeChars cs = bytes at hwide hne hprefix
  unfold detectCoding
  split
  · next s => exact absurd (List.prefix_append utf8Mark s) hprefix
  · next a b s _ =>
    have hbig : ¬ (a = 0xFE ∧ b = 0xFF) := by
      rintro ⟨rfl, rfl⟩
      cases hwide
    have hlittle : ¬ (a = 0xFF ∧ b = 0xFE) := by
      rintro ⟨rfl, rfl⟩
      cases hwide
    rw [if_neg hbig, if_neg hlittle, if_neg (hne a List.mem_cons_self),
      if_neg (hne b (.tail a List.mem_cons_self))]
  · rfl

/-- White space in front of characters does not look like a mark or like UTF-16. -/
theorem isUnmarked_blanks (hw : ∀ c ∈ w, isSpace c = true) (hmark : cs.head? ≠ some '\uFEFF')
    (hzero : '\x00' ∉ cs.take 2) :
    (w ++ cs).head? ≠ some '\uFEFF' ∧ '\x00' ∉ (w ++ cs).take 2 := by
  cases w with
  | nil => exact ⟨hmark, hzero⟩
  | cons c w =>
    obtain ⟨hc, hw⟩ := List.forall_mem_cons.mp hw
    -- the second character is a blank too, or the first of what follows
    have hfirst : ∀ d ∈ (w ++ cs).head?, d ≠ '\x00' := by
      rintro d hd rfl
      cases w with
      | nil =>
        obtain ⟨more, rfl⟩ := List.head?_eq_some_iff.mp hd
        exact hzero List.mem_cons_self
      | cons d w =>
        have hblank := hw d List.mem_cons_self
        rw [Option.some.inj hd] at hblank
        cases hblank
    constructor
    · intro h
      rw [Option.some.inj h] at hc
      cases hc
    · intro h
      rw [List.cons_append, List.take_succ_cons, List.take_one] at h
      rcases List.mem_cons.mp h with rfl | h
      · cases hc
      · exact hfirst _ (Option.mem_toList.mp h) rfl

theorem Source.read_of_startsDeclaration
    (hdetect : detectCoding (Utf8.encodeChars cs) = (.utf8, Utf8.encodeChars cs))
    (hstarts : startsDeclaration .utf8 (Utf8.encodeChars cs) = false) :
    Source.read (Utf8.encodeChars cs) = .ok (.ofText .standard false 1 cs) := by
  rw [Source.read, hdetect]
  simp only [hstarts, Bool.false_eq_true, if_false]
  exact congrArg Except.ok (Source.ofBytes_encodeChars (k := .utf8) trivial false 1 cs)

/-- Behind white space, a document is read as it is without, if it has no declaration, and
    otherwise it is malformed. -/
theorem read_blanks (hmark : cs.head? ≠ some '\uFEFF') (hzero : '\x00' ∉ cs.take 2)
    (hw : ∀ c ∈ w, isSpace c = true) :
    (startsDeclaration .utf8 (Utf8.encodeChars cs) = false →
      (read (Utf8.encodeChars (w ++ cs))).toOption = (read (Utf8.encodeChars cs)).toOption) ∧
    (startsDeclaration .utf8 (Utf8.encodeChars cs) = true → w ≠ [] →
      read (Utf8.encodeChars (w ++ cs)) = .error .malformed) := by
  obtain ⟨hmark', hzero'⟩ := isUnmarked_blanks hw hmark hzero
  have hdetect := detectCoding_encodeChars hmark' hzero'
  cases w with
  | nil => exact ⟨fun _ => rfl, fun _ hne => absurd rfl hne⟩
  | cons c w =>
    have hblank : startsDeclaration .utf8 (Utf8.encodeChars (c :: w ++ cs)) = false := by
      rw [Bool.eq_false_iff]
      intro h
      obtain ⟨s, hs⟩ := exists_cons_of_declaration h
      have hc := hw c List.mem_cons_self
      rw [(List.cons.inj hs).1] at hc
      cases hc
    have hread : read (Utf8.encodeChars (c :: w ++ cs)) =
        readDocument (.ofText .standard false 1 (c :: w ++ cs)) := by
      rw [read, Source.read_of_startsDeclaration hdetect hblank]
    rw [hread]
    constructor
    · intro hstarts
      rw [toOption_readDocument_blanks hw, read,
        Source.read_of_startsDeclaration (detectCoding_encodeChars hmark hzero) hstarts]
    · intro hstarts _
      exact readDocument_of_declaration hw hstarts false 1

end PropertyList.Xml
