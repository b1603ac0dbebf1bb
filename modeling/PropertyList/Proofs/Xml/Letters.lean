/-
  PropertyList.Proofs.Xml.Letters

  What the alphabet of names does to markup.  The wide alphabet has three letters that the standard
  one does not have.  A name in the standard alphabet stops in front of such a letter, and none of
  them can stand behind a name.  So each part of markup is read alike in both alphabets, or it
  has one of these letters and is refused in the standard one.
-/
import PropertyList.Proofs.Xml.Suffix

namespace PropertyList.Xml

/-! ## Letters -/

/-- The letters that only the wide alphabet has. -/
def wideLetters : List Char := ['ª', 'µ', 'º']

/-- A text with such a letter. -/
def HasWideLetter (s : List Char) : Prop := ∃ c ∈ s, c ∈ wideLetters

variable {c : Char} {s t rest : List Char}

theorem HasWideLetter.of_subset (h : HasWideLetter t) (hs : t ⊆ s) : HasWideLetter s := by
  obtain ⟨c, hc, hletter⟩ := h
  exact ⟨c, hs hc, hletter⟩

theorem HasWideLetter.of_suffix (h : HasWideLetter t) (hs : t <:+ s) : HasWideLetter s :=
  h.of_subset hs.subset

theorem HasWideLetter.cons (h : HasWideLetter s) (c : Char) : HasWideLetter (c :: s) :=
  h.of_suffix (List.suffix_cons c s)

theorem hasWideLetter_cons (hc : c ∈ wideLetters) (s : List Char) : HasWideLetter (c :: s) :=
  ⟨c, List.mem_cons_self, hc⟩

theorem mem_wideLetters_iff : c ∈ wideLetters ↔ c = 'ª' ∨ c = 'µ' ∨ c = 'º' := by
  simp [wideLetters]

/-- Such a letter has one of three numbers. -/
theorem mem_wideLetters_of_toNat (h : c.toNat = 0xAA ∨ c.toNat = 0xB5 ∨ c.toNat = 0xBA) :
    c ∈ wideLetters := by
  rw [mem_wideLetters_iff, ← Char.toNat_inj, ← Char.toNat_inj, ← Char.toNat_inj]
  exact h

theorem starts_standard_of_mem (hc : c ∈ wideLetters) : Alphabet.standard.starts c = false := by
  rcases mem_wideLetters_iff.mp hc with rfl | rfl | rfl <;> decide

theorem continues_standard_of_mem (hc : c ∈ wideLetters) :
    Alphabet.standard.continues c = false := by
  rcases mem_wideLetters_iff.mp hc with rfl | rfl | rfl <;> decide

/-- The alphabets do not differ in other characters. -/
theorem starts_of_not_mem (hc : c ∉ wideLetters) :
    Alphabet.standard.starts c = Alphabet.wide.starts c := by
  have hn : ¬ (c.toNat = 0xAA ∨ c.toNat = 0xB5 ∨ c.toNat = 0xBA) :=
    fun h => hc (mem_wideLetters_of_toNat h)
  simp only [Alphabet.starts, if_neg hn]

theorem continues_of_not_mem (hc : c ∉ wideLetters) :
    Alphabet.standard.continues c = Alphabet.wide.continues c := by
  simp only [Alphabet.continues, starts_of_not_mem hc]

/-! ## Narrowing -/

/-- A result is the same as another one, or it is a failure and there is a cause for that. -/
def Narrows {β : Type} (IsFailure : β → Prop) (cause : Prop) (x y : β) : Prop :=
  x = y ∨ IsFailure x ∧ cause

section

variable {β : Type} {IsFailure : β → Prop} {cause cause' : Prop} {x y : β}

theorem Narrows.refl (x : β) : Narrows IsFailure cause x x := .inl rfl

theorem Narrows.mono (h : Narrows IsFailure cause x y) (hcause : cause → cause') :
    Narrows IsFailure cause' x y :=
  h.imp_right fun ⟨hx, hc⟩ => ⟨hx, hcause hc⟩

end

/-! ## Names and references -/

/-- The characters of a name go on as far in both alphabets, or stop at a letter. -/
theorem span_continues_cases (s : List Char) :
    s.span Alphabet.standard.continues = s.span Alphabet.wide.continues ∨
      ∃ c ∈ wideLetters, ∃ t, (s.span Alphabet.standard.continues).2 = c :: t := by
  rw [List.span_eq_takeWhile_dropWhile, List.span_eq_takeWhile_dropWhile]
  induction s with
  | nil => exact .inl rfl
  | cons c s ih =>
    by_cases hc : c ∈ wideLetters
    · refine .inr ⟨c, hc, s, List.dropWhile_cons_of_neg ?_⟩
      simp [continues_standard_of_mem hc]
    · have hsame := continues_of_not_mem hc
      -- of any other character both alphabets think the same
      cases hstandard : Alphabet.standard.continues c with
      | true =>
        have hwide : Alphabet.wide.continues c = true := hsame.symm.trans hstandard
        rw [List.takeWhile_cons_of_pos hstandard, List.takeWhile_cons_of_pos hwide,
          List.dropWhile_cons_of_pos hstandard, List.dropWhile_cons_of_pos hwide]
        refine ih.imp_left fun h => ?_
        obtain ⟨htake, hdrop⟩ := Prod.mk.inj h
        rw [htake, hdrop]
      | false =>
        have hwide : Alphabet.wide.continues c = false := hsame.symm.trans hstandard
        simp only [List.takeWhile_cons, List.dropWhile_cons, hstandard, hwide]
        exact .inl rfl

/-- A name is the same in both alphabets, or it is none in the standard one, or it stops at a
    letter there. -/
theorem takeName?_cases (s : List Char) :
    takeName? .standard s = takeName? .wide s ∨
      HasWideLetter s ∧ (takeName? .standard s = none ∨
        ∃ name, ∃ c ∈ wideLetters, ∃ t, takeName? .standard s = some (name, c :: t)) := by
  cases s with
  | nil => exact .inl rfl
  | cons c s =>
    by_cases hc : c ∈ wideLetters
    · refine .inr ⟨hasWideLetter_cons hc s, .inl ?_⟩
      rw [takeName?, starts_standard_of_mem hc]
      rfl
    · rw [takeName?, takeName?, ← starts_of_not_mem hc]
      cases Alphabet.standard.starts c with
      | false => exact .inl rfl
      | true =>
        -- the name starts alike, so what is left is where it ends
        rcases span_continues_cases s with hsame | ⟨d, hd, t, hrest⟩
        · rw [hsame]
          exact .inl rfl
        · have hsuffix : d :: t <:+ s := hrest ▸ span_suffix
          refine .inr ⟨((hasWideLetter_cons hd t).of_suffix hsuffix).cons c, .inr ?_⟩
          refine ⟨c :: (s.span Alphabet.standard.continues).1, d, hd, t, ?_⟩
          rw [← hrest]
          rfl

/-- What starts with a name narrows like the part behind the name, if that part is refused where it
    starts with a letter. -/
theorem takeName?_bind_narrows {β : Type} {f g : List Char × List Char → Option β}
    (hgo : ∀ name after,
      Narrows (· = none) (HasWideLetter after) (f (name, after)) (g (name, after)))
    (hstop : ∀ name, ∀ c ∈ wideLetters, ∀ t, f (name, c :: t) = none) (s : List Char) :
    Narrows (· = none) (HasWideLetter s) ((takeName? .standard s).bind f)
      ((takeName? .wide s).bind g) := by
  rcases takeName?_cases s with hsame | ⟨hs, hname | ⟨name, c, hc, t, hname⟩⟩
  · rw [hsame]
    cases hname : takeName? .wide s with
    | none => exact .refl _
    | some taken => exact (hgo taken.1 taken.2).mono fun h => h.of_suffix (takeName?_suffix hname)
  · rw [hname]
    exact .inr ⟨rfl, hs⟩
  · rw [hname]
    exact .inr ⟨hstop name c hc t, hs⟩

/-- A reference is the same in both alphabets, or it is none in the standard one. -/
theorem takeReference?_narrows (s : List Char) :
    Narrows (· = none) (HasWideLetter s) (takeReference? .standard s) (takeReference? .wide s) := by
  unfold takeReference?
  split
  · exact .refl _
  · exact .refl _
  · rcases takeName?_cases s with hname | ⟨hs, hname | ⟨name, c, hc, t, hname⟩⟩
    · rw [hname]
      exact .refl _
    · rw [hname]
      exact .inr ⟨rfl, hs⟩
    · rw [hname]
      refine .inr ⟨?_, hs⟩
      rcases mem_wideLetters_iff.mp hc with rfl | rfl | rfl <;> rfl

theorem dropInstruction?_narrows (s : List Char) :
    Narrows (· = none) (HasWideLetter s) (dropInstruction? .standard s)
      (dropInstruction? .wide s) := by
  unfold dropInstruction?
  rcases takeName?_cases s with hname | ⟨hs, hname | ⟨name, c, hc, t, hname⟩⟩
  · rw [hname]
    exact .refl _
  · rw [hname]
    exact .inr ⟨rfl, hs⟩
  · rw [hname]
    refine .inr ⟨?_, hs⟩
    dsimp only
    split
    · rfl
    · rcases mem_wideLetters_iff.mp hc with rfl | rfl | rfl <;> rfl

/-! ## Attributes and tags -/

/-- A value has the characters between its quotes. -/
theorem subset_of_takeValue? {value : List Char} (h : takeValue? s = some (value, rest)) :
    value ⊆ s := by
  unfold takeValue? at h
  split at h
  · cases h
  split at h
  · split at h
    · next hspan =>
      obtain ⟨rfl, -⟩ := Prod.mk.inj (Option.some.inj h)
      rw [List.span_eq_takeWhile_dropWhile] at hspan
      rw [← (Prod.mk.inj hspan).1]
      exact List.Subset.trans (List.takeWhile_prefix _).subset (List.subset_cons_self _ _)
    · cases h
  · cases h

variable (complete : Bool)

theorem isAttributeValue_narrows (fuel : Nat) (s : List Char) :
    Narrows (· = false) (HasWideLetter s) (isAttributeValue .standard complete fuel s)
      (isAttributeValue .wide complete fuel s) := by
  induction fuel generalizing s with
  | zero => exact .refl _
  | succ fuel ih =>
    cases s with
    | nil => exact .refl _
    | cons c s =>
      rw [isAttributeValue, isAttributeValue]
      split
      · exact .refl _
      split
      -- only the name in a reference can be read differently
      · rcases takeReference?_narrows s with hsame | ⟨hnone, hs⟩
        · rw [hsame]
          cases hreference : takeReference? .wide s with
          | none => exact .refl _
          | some taken =>
            obtain ⟨r, rest⟩ := taken
            have hrest := (takeReference?_suffix hreference).trans (List.suffix_cons c s)
            dsimp only
            rcases ih rest with hvalue | ⟨hvalue, hletter⟩
            · rw [hvalue]
              exact .refl _
            · rw [hvalue, Bool.and_false]
              exact .inr ⟨rfl, hletter.of_suffix hrest⟩
        · rw [hnone]
          exact .inr ⟨rfl, hs.cons c⟩
      · exact (ih s).mono fun hs => hs.cons c

theorem takeAttribute?_narrows (s : List Char) :
    Narrows (· = none) (HasWideLetter s) (takeAttribute? .standard complete s)
      (takeAttribute? .wide complete s) := by
  refine takeName?_bind_narrows (fun name after => ?_) (fun name c hc t => ?_) s
  · dsimp only
    split
    · next behind hequals =>
      have hbehind : behind.dropWhile isSpace <:+ after := (List.dropWhile_suffix isSpace).trans
        ((List.suffix_cons _ _).trans (suffix_of_dropWhile hequals))
      cases hvalue : takeValue? (behind.dropWhile isSpace) with
      | none => exact .refl _
      | some taken =>
        obtain ⟨value, rest⟩ := taken
        have hsubset : value ⊆ after :=
          List.Subset.trans (subset_of_takeValue? hvalue) hbehind.subset
        dsimp only [Option.bind_eq_bind, Option.bind_some]
        rcases isAttributeValue_narrows complete (value.length + 1) value with
          hvalid | ⟨hvalid, hletter⟩
        · rw [hvalid]
          exact .refl _
        · rw [hvalid]
          exact .inr ⟨rfl, hletter.of_subset hsubset⟩
    · exact .refl _
  · -- such a letter is no equals sign
    rcases mem_wideLetters_iff.mp hc with rfl | rfl | rfl <;> rfl

theorem dropAttributes?_narrows (fuel : Nat) (names : List (List Char)) (s : List Char) :
    Narrows (· = none) (HasWideLetter s) (dropAttributes? .standard complete fuel names s)
      (dropAttributes? .wide complete fuel names s) := by
  induction fuel generalizing names s with
  | zero => exact .refl _
  | succ fuel ih =>
    unfold dropAttributes?
    split
    · exact .refl _
    · exact .refl _
    · next c s _ _ =>
      split
      · have hdrop := List.dropWhile_suffix (l := s) isSpace
        split
        · exact .refl _
        · exact .refl _
        -- tags end alike, and each attribute is read alike or is a fault
        · rcases takeAttribute?_narrows complete (s.dropWhile isSpace) with hsame | ⟨hnone, hs⟩
          · rw [hsame]
            cases hattribute : takeAttribute? .wide complete (s.dropWhile isSpace) with
            | none => exact .refl _
            | some taken =>
              obtain ⟨name, rest⟩ := taken
              have hrest := (takeAttribute?_suffix hattribute).trans hdrop
              dsimp only
              split
              · exact .refl _
              · exact (ih _ rest).mono fun hletter => (hletter.of_suffix hrest).cons c
          · rw [hnone]
            exact .inr ⟨rfl, (hs.of_suffix hdrop).cons c⟩
      · exact .refl _
    · exact .refl _

theorem takeStartTag?_narrows (fuel : Nat) (s : List Char) :
    Narrows (· = none) (HasWideLetter s) (takeStartTag? .standard complete fuel s)
      (takeStartTag? .wide complete fuel s) := by
  refine takeName?_bind_narrows (fun name after => ?_) (fun name c hc t => ?_) s
  · rcases dropAttributes?_narrows complete fuel [] after with hsame | ⟨hnone, hletter⟩
    · dsimp only
      rw [hsame]
      exact .refl _
    · dsimp only
      rw [hnone]
      exact .inr ⟨rfl, hletter⟩
  · -- no tag goes on with such a letter
    cases fuel with
    | zero => rfl
    | succ fuel => rcases mem_wideLetters_iff.mp hc with rfl | rfl | rfl <;> rfl

theorem takeEndTag?_narrows (s : List Char) :
    Narrows (· = none) (HasWideLetter s) (takeEndTag? .standard s) (takeEndTag? .wide s) := by
  refine takeName?_bind_narrows (fun _ _ => .refl _) (fun name c hc t => ?_) s
  rcases mem_wideLetters_iff.mp hc with rfl | rfl | rfl <;> rfl

end PropertyList.Xml
