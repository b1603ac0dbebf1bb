/-
  PropertyList.Proofs.Xml.Unicode

  A document does not depend on the coding that its characters are written in, as long as that
  is UTF-8 or UTF-16 and the document names no other.  Every reader of characters takes the same
  ones from the bytes in each of these codings, and leaves the same ones over; only the alphabet
  of names comes from the coding.
-/
import PropertyList.Proofs.Conversion.Refusal
import PropertyList.Proofs.Xml.Source

namespace PropertyList.Xml

/-! ## Codings for all characters -/

namespace Coding

/-- The codings in which every character can be written. -/
def IsUnicode : Coding → Prop
  | utf8 => True
  | utf16 _ => True
  | _ => False

/-- The bytes of characters in one of these codings. -/
def encodeChars : Coding → List Char → List UInt8
  | utf16 order, cs => Utf16.encodeChars order cs
  | _, cs => Utf8.encodeChars cs

end Coding

variable {k : Coding}

/-- A character that is read from UTF-16 with lone surrogates allowed is also read with the halves
    of pairs joined unseen. -/
theorem nextUtf16?_of_next? {order : ByteOrder} {c : Char} {s t : List UInt8}
    (h : Utf16.next? order s = some (.scalar c, t)) : nextUtf16? order s = some (c, t) := by
  -- the number of a character is not that of a half
  have halone {n : Nat} {u : List UInt8} (hhigh : Utf16.isHigh n = true)
      (h : (CodePoint.ofNat? n).map (·, u) = some (.scalar c, t)) : False := by
    obtain ⟨p, hp, hpc⟩ := Option.map_eq_some_iff.mp h
    obtain ⟨rfl, -⟩ := Prod.mk.inj hpc
    have hn := CodePoint.toNat_of_ofNat? hp
    have hgap := CodePoint.toNat_scalar_lt_or c
    simp only [Utf16.isHigh, Bool.and_eq_true, decide_eq_true_eq] at hhigh
    omega
  have hchar {n : Nat} {u : List UInt8}
      (h : (CodePoint.ofNat? n).map (·, u) = some (.scalar c, t)) :
      ((CodePoint.ofNat? n).bind fun p => p.char?.map (·, u)) = some (c, t) := by
    obtain ⟨p, hp, hpc⟩ := Option.map_eq_some_iff.mp h
    obtain ⟨rfl, rfl⟩ := Prod.mk.inj hpc
    rw [hp]
    rfl
  unfold Utf16.next? at h
  unfold nextUtf16?
  split at h
  · dsimp only at h ⊢
    split at h
    · next hhigh =>
      rw [if_pos hhigh]
      split at h
      · split at h
        · exact hchar h
        · exact (halone hhigh h).elim
      · exact (halone hhigh h).elim
    · next hhigh =>
      rw [if_neg hhigh]
      exact hchar h
  · cases h

theorem next?_encodeChars_cons (hk : k.IsUnicode) (c : Char) (cs : List Char) :
    k.next? (k.encodeChars (c :: cs)) = some (c, k.encodeChars cs) := by
  cases k with
  | utf8 =>
    show (Utf8.next? (Utf8.encode (.scalar c) ++ Utf8.encodeChars cs)).bind _ = _
    rw [Utf8.next?_encode]
    rfl
  | utf16 order => exact nextUtf16?_of_next? (Utf16.next?_encode order c (Utf16.encodeChars order cs))
  | latin1 => exact hk.elim
  | ascii => exact hk.elim
  | table t => exact hk.elim

theorem next?_encodeChars_nil (hk : k.IsUnicode) : k.next? (k.encodeChars []) = none := by
  cases k with
  | utf8 => rfl
  | utf16 order => rfl
  | latin1 => exact hk.elim
  | ascii => exact hk.elim
  | table t => exact hk.elim

theorem length_le_length_encodeChars (k : Coding) (cs : List Char) :
    cs.length ≤ (k.encodeChars cs).length := by
  cases k with
  | utf16 order => exact length_le_length_flatMap fun c _ => Utf16.encode_ne_nil order (.scalar c)
  | _ => exact length_le_length_flatMap fun c _ => Utf8.encodeNat_ne_nil c.toNat

/-! ## Legal characters -/

/-- The legal character at the front of characters, a line break of any form as a line feed. -/
def nextChar? : List Char → Option (Char × List Char)
  | [] => none
  | c :: s =>
    if !isLegal c then none
    else if c = '\r' then some ('\n', if s.head? = some '\n' then s.tail else s)
    else some (c, s)

/-- What follows a legal character, which may be a line feed for other characters. -/
theorem nextChar?_cases {cs s : List Char} {c : Char} (h : nextChar? cs = some (c, s)) :
    (c ∈ cs ∨ c = '\n') ∧ s <:+ cs ∧ s.length < cs.length := by
  cases cs with
  | nil => cases h
  | cons a cs =>
    rw [nextChar?] at h
    split at h
    · cases h
    split at h
    · obtain ⟨rfl, rfl⟩ := Prod.mk.inj (Option.some.inj h)
      have hrest : (if cs.head? = some '\n' then cs.tail else cs) <:+ cs := by
        split
        · exact List.tail_suffix cs
        · exact List.suffix_refl cs
      exact ⟨.inr rfl, hrest.trans (List.suffix_cons a cs), Nat.lt_succ_of_le hrest.length_le⟩
    · obtain ⟨rfl, rfl⟩ := Prod.mk.inj (Option.some.inj h)
      exact ⟨.inl List.mem_cons_self, List.suffix_cons _ _, Nat.lt_succ_self _⟩

/-- What is taken from the bytes of characters, and the bytes of the characters left over. -/
def Coding.leaves {α : Type} (k : Coding) (taken : Option (α × List Char)) :
    Option (α × List UInt8) :=
  taken.map fun (a, s) => (a, k.encodeChars s)

theorem nextLegal?_encodeChars (hk : k.IsUnicode) (cs : List Char) :
    k.nextLegal? (k.encodeChars cs) = k.leaves (nextChar? cs) := by
  cases cs with
  | nil =>
    rw [Coding.nextLegal?, next?_encodeChars_nil hk]
    rfl
  | cons c cs =>
    rw [Coding.nextLegal?, next?_encodeChars_cons hk, nextChar?]
    dsimp only
    split
    · rfl
    split
    · cases cs with
      | nil =>
        rw [next?_encodeChars_nil hk]
        rfl
      | cons d cs =>
        rw [next?_encodeChars_cons hk]
        by_cases hd : d = '\n'
        · subst hd
          rfl
        · have hhead : (d :: cs).head? ≠ some '\n' := fun e => hd (Option.some.inj e)
          rw [if_neg hhead]
          split
          · next h => exact absurd (Prod.mk.inj (Option.some.inj h)).1 hd
          · rfl
    · rfl

/-- Legal characters are read from the bytes as they are from the characters. -/
theorem readAll_nextLegal?_encodeChars (hk : k.IsUnicode) (fuel : Nat) (taken cs : List Char) :
    readAll k.nextLegal? fuel taken (k.encodeChars cs) =
      ((readAll nextChar? fuel taken cs).1, k.encodeChars (readAll nextChar? fuel taken cs).2) := by
  induction fuel generalizing taken cs with
  | zero => rfl
  | succ fuel ih =>
    rw [readAll, readAll, nextLegal?_encodeChars hk]
    cases nextChar? cs with
    | none => rfl
    | some next => exact ih (next.1 :: taken) next.2

/-- The characters of a document, and what is left over behind the last legal one. -/
def legalChars (cs : List Char) : List Char × List Char := readAll nextChar? cs.length [] cs

/-- More fuel than there are characters makes no difference. -/
theorem readAll_nextChar? {fuel : Nat} {cs : List Char} (hfuel : cs.length ≤ fuel)
    (taken : List Char) :
    readAll nextChar? fuel taken cs = (taken.reverse ++ (legalChars cs).1, (legalChars cs).2) := by
  induction hn : cs.length using Nat.strongRecOn generalizing cs fuel taken with
  | ind n ih =>
    rw [legalChars, ← readAll_taken]
    cases hnext : nextChar? cs with
    | none =>
      have hstuck (fuel : Nat) : readAll nextChar? fuel taken cs = (taken.reverse, cs) := by
        cases fuel with
        | zero => rfl
        | succ fuel => rw [readAll, hnext]
      rw [hstuck, hstuck]
    | some next =>
      obtain ⟨c, s⟩ := next
      obtain ⟨-, -, hlt⟩ := nextChar?_cases hnext
      obtain ⟨m, rfl⟩ : ∃ m, fuel = m + 1 := ⟨fuel - 1, by omega⟩
      obtain ⟨l, hl⟩ : ∃ l, cs.length = l + 1 := ⟨cs.length - 1, by omega⟩
      rw [hl, readAll, readAll, hnext]
      dsimp only
      rw [ih s.length (by omega) (by omega) _ rfl, ih s.length (by omega) (by omega) _ rfl]

theorem legalChars_of_none {cs : List Char} (h : nextChar? cs = none) :
    legalChars cs = ([], cs) := by
  rw [legalChars]
  cases cs with
  | nil => rfl
  | cons c cs => rw [List.length_cons, readAll, h, List.reverse_nil]

theorem legalChars_of_some {cs s : List Char} {c : Char} (h : nextChar? cs = some (c, s)) :
    legalChars cs = (c :: (legalChars s).1, (legalChars s).2) := by
  obtain ⟨-, -, hlt⟩ := nextChar?_cases h
  obtain ⟨l, hl⟩ : ∃ l, cs.length = l + 1 := ⟨cs.length - 1, by omega⟩
  rw [legalChars, hl, readAll, h]
  exact readAll_nextChar? (by omega) [c]

/-- The legal characters of a document are its own, but for line breaks. -/
theorem mem_legalChars {cs : List Char} {a : Char} (h : a ∈ (legalChars cs).1) :
    a ∈ cs ∨ a = '\n' := by
  induction hn : cs.length using Nat.strongRecOn generalizing cs with
  | ind n ih =>
    cases hnext : nextChar? cs with
    | none =>
      rw [legalChars_of_none hnext] at h
      cases h
    | some next =>
      obtain ⟨c, s⟩ := next
      obtain ⟨hc, hs, hlt⟩ := nextChar?_cases hnext
      rw [legalChars_of_some hnext] at h
      rcases List.mem_cons.mp h with rfl | h
      · exact hc
      · exact (ih s.length (by omega) h rfl).imp_left fun h => hs.subset h

/-! ## The declaration -/

/-- What is read from the bytes of a document is the same in all codings, and so are the characters
    that are left over. -/
def Uniform {α : Type} (cs : List Char) (f : Coding → Option (α × List UInt8)) : Prop :=
  ∃ taken : Option (α × List Char), (∀ r ∈ taken, r.2 <:+ cs) ∧
    ∀ k : Coding, k.IsUnicode → f k = k.leaves taken

theorem uniform_takeChars? (n : Nat) (cs : List Char) :
    Uniform cs fun k => takeChars? k n (k.encodeChars cs) := by
  induction n generalizing cs with
  | zero =>
    refine ⟨some ([], cs), ?_, fun k _ => rfl⟩
    rintro _ ⟨⟩
    exact List.suffix_refl cs
  | succ n ih =>
    cases hnext : nextChar? cs with
    | none =>
      refine ⟨none, by rintro _ ⟨⟩, fun k hk => ?_⟩
      simp only [takeChars?, nextLegal?_encodeChars hk, hnext]
      rfl
    | some taken =>
      obtain ⟨c, s⟩ := taken
      obtain ⟨-, hs, -⟩ := nextChar?_cases hnext
      obtain ⟨taken, hrest, htaken⟩ := ih s
      refine ⟨taken.map fun r => (c :: r.1, r.2), ?_, fun k hk => ?_⟩
      · intro r hr
        obtain ⟨r', hr', rfl⟩ := Option.map_eq_some_iff.mp hr
        exact (hrest r' hr').trans hs
      · have hbehind : takeChars? k n (k.encodeChars s) = k.leaves taken := htaken k hk
        simp only [takeChars?, nextLegal?_encodeChars hk, hnext, Coding.leaves, Option.map_some,
          Option.bind_eq_bind, Option.bind_some, hbehind]
        cases taken <;> rfl

theorem uniform_takeInstruction? (taken cs : List Char) {fuel : Coding → Nat}
    (hfuel : ∀ k, cs.length ≤ fuel k) :
    Uniform cs fun k => takeInstruction? k (fuel k) taken (k.encodeChars cs) := by
  -- the fuel is not used up before the characters are
  induction hn : cs.length using Nat.strongRecOn generalizing cs taken fuel with
  | ind n ih =>
    cases hnext : nextChar? cs with
    | none =>
      refine ⟨none, by rintro _ ⟨⟩, fun k hk => ?_⟩
      dsimp only
      cases fuel k with
      | zero => rfl
      | succ m =>
        rw [takeInstruction?, nextLegal?_encodeChars hk, hnext]
        rfl
    | some next =>
      obtain ⟨c, s⟩ := next
      obtain ⟨-, hs, hlt⟩ := nextChar?_cases hnext
      have hstep (k : Coding) (hk : k.IsUnicode) :
          takeInstruction? k (fuel k) taken (k.encodeChars cs) =
            if c = '>' ∧ taken.head? = some '?' then
              some (taken.tail.reverse, k.encodeChars s)
            else takeInstruction? k (fuel k - 1) (c :: taken) (k.encodeChars s) := by
        obtain ⟨m, hm⟩ : ∃ m, fuel k = m + 1 := ⟨fuel k - 1, by have := hfuel k; omega⟩
        rw [hm, takeInstruction?, nextLegal?_encodeChars hk, hnext]
        rfl
      by_cases hend : c = '>' ∧ taken.head? = some '?'
      · refine ⟨some (taken.tail.reverse, s), ?_, fun k hk => ?_⟩
        · rintro _ ⟨⟩
          exact hs
        · dsimp only
          rw [hstep k hk, if_pos hend]
          rfl
      · have hfuel' (k : Coding) : s.length ≤ fuel k - 1 := by
          have := hfuel k
          omega
        obtain ⟨result, hrest, hresult⟩ := ih s.length (by omega) (c :: taken) s hfuel' rfl
        refine ⟨result, fun r hr => (hrest r hr).trans hs, fun k hk => ?_⟩
        dsimp only
        rw [hstep k hk, if_neg hend]
        exact hresult k hk

/-- Whether a document starts with a declaration. -/
theorem exists_startsDeclaration (cs : List Char) :
    ∃ b, ∀ k : Coding, k.IsUnicode → startsDeclaration k (k.encodeChars cs) = b := by
  obtain ⟨taken, -, htaken⟩ := uniform_takeChars? 6 cs
  refine ⟨taken.any fun r =>
    r.1.take 5 = "<?xml".toList && r.1.getLast?.any fun c => isSpace c || c = '?', fun k hk => ?_⟩
  rw [startsDeclaration]
  simp only [show takeChars? k 6 (k.encodeChars cs) = k.leaves taken from htaken k hk]
  cases taken <;> rfl

/-- The declaration of a document, with what is behind it. -/
theorem uniform_declaration (cs : List Char) :
    Uniform cs fun k => (takeChars? k 5 (k.encodeChars cs)).bind fun front =>
      takeInstruction? k front.2.length [] front.2 := by
  obtain ⟨taken, hrest, htaken⟩ := uniform_takeChars? 5 cs
  cases taken with
  | none =>
    refine ⟨none, by rintro _ ⟨⟩, fun k hk => ?_⟩
    dsimp only
    rw [show takeChars? k 5 (k.encodeChars cs) = _ from htaken k hk]
    rfl
  | some front =>
    obtain ⟨front, rest⟩ := front
    obtain ⟨result, hbehind, hresult⟩ := uniform_takeInstruction? [] rest fun k =>
      length_le_length_encodeChars k rest
    refine ⟨result, fun r hr => (hbehind r hr).trans (hrest _ rfl), fun k hk => ?_⟩
    dsimp only
    rw [show takeChars? k 5 (k.encodeChars cs) = _ from htaken k hk]
    exact hresult k hk

/-! ## Documents -/

namespace Source

/-- The document in some characters. -/
def ofText (α : Alphabet) (standalone : Bool) (firstLine : Nat) (cs : List Char) : Source where
  chars := (legalChars cs).1
  ending := if (legalChars cs).2.isEmpty then .complete else .illegal
  alphabet := α
  standalone
  firstLine

/-- What the bytes of characters end with. -/
theorem ending_encodeChars (hk : k.IsUnicode) (rest : List Char) :
    (match k.encodeChars rest with
      | [] => Ending.complete
      | [_] => if k.width = 2 then .torn else .illegal
      | _ => .illegal) = if rest.isEmpty then .complete else .illegal := by
  cases rest with
  | nil => cases k <;> rfl
  | cons c rest =>
    have hlength := length_le_length_encodeChars k (c :: rest)
    split
    · next h =>
      rw [h] at hlength
      exact absurd hlength (Nat.not_succ_le_zero _)
    · next h =>
      -- units of two bytes are never torn
      cases k with
      | utf16 order =>
        have heven := Utf16.length_encodeChars_mod_two order (c :: rest)
        rw [show Utf16.encodeChars order (c :: rest) = _ from h] at heven
        cases heven
      | _ => rfl
    · rfl

theorem ofBytes_encodeChars (hk : k.IsUnicode) (standalone : Bool) (firstLine : Nat)
    (cs : List Char) :
    ofBytes k standalone firstLine (k.encodeChars cs) =
      ofText k.alphabet standalone firstLine cs := by
  rw [ofBytes, readAll_nextLegal?_encodeChars hk,
    readAll_nextChar? (length_le_length_encodeChars k cs)]
  dsimp only
  rw [List.reverse_nil, List.nil_append, ofText, Source.mk.injEq]
  exact ⟨rfl, ending_encodeChars hk _, rfl, rfl, rfl⟩

/-- A document that names no coding is read alike in all of them. -/
theorem exists_read_eq {t : List Char}
    (hdetect : detectCoding (Utf8.encodeChars t) = (.utf8, Utf8.encodeChars t))
    (hname : declaredName? (Utf8.encodeChars t) = none) :
    ∃ found : Option (Bool × Nat × List Char), (∀ r ∈ found, r.2.2 <:+ t) ∧
      ∀ (k : Coding) (bytes : List UInt8), k.IsUnicode → detectCoding bytes = (k, k.encodeChars t) →
        Source.read bytes = found.elim (.error .malformed) fun r =>
          .ok (ofText k.alphabet r.1 r.2.1 r.2.2) := by
  obtain ⟨starts, hstarts⟩ := exists_startsDeclaration t
  obtain ⟨taken, hrest, htaken⟩ := uniform_declaration t
  dsimp only at htaken
  cases starts with
  | false =>
    refine ⟨some (false, 1, t), ?_, fun k bytes hk hbytes => ?_⟩
    · rintro _ ⟨⟩
      exact List.suffix_refl t
    · rw [Source.read, hbytes]
      simp only [hstarts k hk, Bool.false_eq_true, if_false, ofBytes_encodeChars hk]
      rfl
  | true =>
    cases taken with
    | none =>
      refine ⟨none, by rintro _ ⟨⟩, fun k bytes hk hbytes => ?_⟩
      rw [Source.read, hbytes]
      simp only [hstarts k hk, if_true, htaken k hk]
      rfl
    | some taken =>
      obtain ⟨content, rest⟩ := taken
      cases hparse : parseDeclaration? content with
      | none =>
        refine ⟨none, by rintro _ ⟨⟩, fun k bytes hk hbytes => ?_⟩
        rw [Source.read, hbytes]
        simp only [hstarts k hk, if_true, htaken k hk, Coding.leaves, Option.map_some, hparse]
        rfl
      | some d =>
        have hencoding : d.encoding = none := by
          have hutf8 : ((takeChars? .utf8 5 (Utf8.encodeChars t)).bind fun front =>
              takeInstruction? .utf8 front.2.length [] front.2) = _ := htaken .utf8 trivial
          have hstarts8 : startsDeclaration .utf8 (Utf8.encodeChars t) = true := hstarts .utf8 trivial
          rw [declaredName?, hdetect] at hname
          simp only [hstarts8, if_true, hutf8, Coding.leaves, Option.map_some, Option.bind_some,
            hparse] at hname
          exact hname
        refine ⟨some (d.standalone, 1 + content.count '\n', rest), ?_, fun k bytes hk hbytes => ?_⟩
        · rintro _ ⟨⟩
          exact hrest _ rfl
        · rw [Source.read, hbytes]
          simp only [hstarts k hk, if_true, htaken k hk, Coding.leaves, Option.map_some, hparse,
            hencoding]
          exact congrArg Except.ok (ofBytes_encodeChars hk _ _ _)

end Source

end PropertyList.Xml
