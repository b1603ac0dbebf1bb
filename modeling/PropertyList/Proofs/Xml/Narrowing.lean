/-
  PropertyList.Proofs.Xml.Narrowing

  What the alphabet of names does to a document.  The tokens of the prolog, the declarations, the
  content and what follows the root element are each read alike in both alphabets, or are refused
  in the standard one, at a letter that only the wide one has.  So a document that is read in the
  standard alphabet has the same value in the wide one, and one without such letters is read alike.
-/
import PropertyList.Proofs.Xml.Letters
import PropertyList.Proofs.Xml.Structure

namespace PropertyList.Xml

variable {atEnd complete : Bool} {c : Char} {s rest : List Char}

/-! ## Tokens of the prolog -/

theorem takePercent?_narrows (s : List Char) :
    Narrows (· = none) (HasWideLetter s) (takePercent? .standard s) (takePercent? .wide s) := by
  unfold takePercent?
  split
  · exact .refl _
  split
  · exact .refl _
  next c t _ =>
  rcases takeName?_cases (c :: t) with hname | ⟨hs, hname | ⟨name, d, hd, u, hname⟩⟩
  · rw [hname]
    exact .refl _
  · rw [hname]
    exact .inr ⟨rfl, hs⟩
  · rw [hname]
    refine .inr ⟨?_, hs⟩
    rcases mem_wideLetters_iff.mp hd with rfl | rfl | rfl <;> rfl

/-- The first character of a word is not such a letter, if the word is one in the standard
    alphabet. -/
theorem any_starts_takeWhile (s : List Char) :
    (s.takeWhile Alphabet.standard.continues).head?.any Alphabet.standard.starts =
      (s.takeWhile Alphabet.standard.continues).head?.any Alphabet.wide.starts := by
  cases s with
  | nil => rfl
  | cons c s =>
    cases hc : Alphabet.standard.continues c with
    | false =>
      rw [List.takeWhile_cons_of_neg (by simp [hc])]
      rfl
    | true =>
      have hletter : c ∉ wideLetters := by
        intro h
        rw [continues_standard_of_mem h] at hc
        cases hc
      rw [List.takeWhile_cons_of_pos hc]
      exact starts_of_not_mem hletter

theorem takeWord?_narrows (s : List Char) :
    Narrows (· = none) (HasWideLetter s) (takeWord? .standard atEnd s)
      (takeWord? .wide atEnd s) := by
  unfold takeWord?
  have hstarts := any_starts_takeWhile s
  rcases span_continues_cases s with hsame | ⟨c, hc, t, hrest⟩
  · rw [← hsame, List.span_eq_takeWhile_dropWhile]
    dsimp only
    rw [hstarts]
    exact .refl _
  · have hs : HasWideLetter s := (hasWideLetter_cons hc t).of_suffix (hrest ▸ span_suffix)
    refine .inr ⟨?_, hs⟩
    rw [List.span_eq_takeWhile_dropWhile] at hrest ⊢
    dsimp only at hrest ⊢
    rw [hrest]
    split
    · rfl
    · rcases mem_wideLetters_iff.mp hc with rfl | rfl | rfl <;> rfl

theorem takePrologToken?_narrows (atEnd : Bool) (c : Char) (s : List Char) :
    Narrows (· = none) (HasWideLetter (c :: s)) (takePrologToken? .standard atEnd c s)
      (takePrologToken? .wide atEnd c s) := by
  unfold takePrologToken?
  split
  case h_3 =>
    split
    · exact .refl _
    · next s =>
      rcases dropInstruction?_narrows s with hsame | ⟨hnone, hs⟩
      · rw [hsame]
        exact .refl _
      · rw [hnone]
        exact .inr ⟨rfl, (hs.cons _).cons _⟩
    · exact .refl _
  case h_4 => exact (takePercent?_narrows s).mono fun hs => hs.cons _
  case h_12 =>
    -- a reserved word
    rcases takeName?_cases s with hname | ⟨hs, hname | ⟨name, d, hd, u, hname⟩⟩
    · rw [hname]
      exact .refl _
    · rw [hname]
      exact .inr ⟨rfl, hs.cons _⟩
    · rw [hname]
      refine .inr ⟨?_, hs.cons _⟩
      rcases mem_wideLetters_iff.mp hd with rfl | rfl | rfl <;> rfl
  case h_13 => exact takeWord?_narrows _
  all_goals exact .refl _

/-! ### Texts in quotes -/

section Literal

variable {α : Alphabet} {text : List Char}

theorem takeBang?_ne_literal : takeBang? s ≠ some (.literal text, rest) := by
  intro h
  unfold takeBang? at h
  split at h
  · obtain ⟨after, -, h⟩ := Option.map_eq_some_iff.mp h
    cases h
  · cases h
  · cases h
  · dsimp only at h
    split at h
    · split at h <;> cases h
    · cases h

theorem takePercent?_ne_literal : takePercent? α s ≠ some (.literal text, rest) := by
  intro h
  unfold takePercent? at h
  split at h
  · cases h
  split at h
  · cases h
  split at h <;> cases h

theorem takeWord?_ne_literal : takeWord? α atEnd s ≠ some (.literal text, rest) := by
  intro h
  unfold takeWord? at h
  dsimp only at h
  split at h
  · cases h
  split at h
  · obtain ⟨h, -⟩ := Prod.mk.inj (Option.some.inj h)
    split at h <;> cases h
  split at h
  · split at h <;> cases h
  · cases h

theorem subset_of_quoted (h : takePrologToken?.quoted atEnd c s = some (.literal text, rest)) :
    text ⊆ c :: s := by
  unfold takePrologToken?.quoted at h
  split at h
  · next hvalue =>
    split at h
    · obtain rfl := PrologToken.literal.inj (Prod.mk.inj (Option.some.inj h)).1
      exact subset_of_takeValue? hvalue
    · cases h
  · cases h

/-- A text in quotes has characters of what it is taken from. -/
theorem subset_of_takePrologToken? (h : takePrologToken? α atEnd c s = some (.literal text, rest)) :
    text ⊆ c :: s := by
  unfold takePrologToken? at h
  split at h
  case h_1 => exact subset_of_quoted h
  case h_2 => exact subset_of_quoted h
  -- all other tokens are no texts in quotes
  case h_3 =>
    split at h
    · exact absurd h takeBang?_ne_literal
    · obtain ⟨after, -, h⟩ := Option.map_eq_some_iff.mp h
      cases h
    · cases h
  case h_4 => exact absurd h takePercent?_ne_literal
  case h_7 => split at h <;> cases h
  case h_9 =>
    split at h
    · split at h
      · cases h
      split at h <;> cases h
    · cases h
  case h_12 =>
    split at h
    · split at h <;> cases h
    · cases h
  case h_13 => exact absurd h takeWord?_ne_literal
  all_goals cases h

/-- The texts in quotes of a prolog have characters of the prolog. -/
theorem subset_of_mem_prologTokens {fuel : Nat} {taken : List PrologToken}
    (h : .literal text ∈ (prologTokens α atEnd fuel taken s).1) :
    .literal text ∈ taken ∨ text ⊆ s := by
  induction fuel generalizing taken s with
  | zero => exact .inl (List.mem_reverse.mp h)
  | succ fuel ih =>
    unfold prologTokens at h
    split at h
    · exact .inl (List.mem_reverse.mp h)
    · next c u hdrop =>
      have hu : c :: u <:+ s := suffix_of_dropWhile hdrop
      split at h
      · exact .inl (List.mem_reverse.mp h)
      split at h
      · next token after htoken =>
        have hafter := (takePrologToken?_suffix htoken).trans ((List.suffix_cons c u).trans hu)
        rcases ih h with hmem | hsubset
        · rcases List.mem_cons.mp hmem with rfl | hmem
          · exact .inr (List.Subset.trans (subset_of_takePrologToken? htoken) hu.subset)
          · exact .inl hmem
        · exact .inr (List.Subset.trans hsubset hafter.subset)
      · exact .inl (List.mem_reverse.mp h)

end Literal

/-- Tokens are the same in both alphabets, or they break off in the standard one. -/
theorem prologTokens_narrows (atEnd : Bool) (fuel : Nat) (taken : List PrologToken)
    (s : List Char) :
    Narrows (·.2 = none) (HasWideLetter s) (prologTokens .standard atEnd fuel taken s)
      (prologTokens .wide atEnd fuel taken s) := by
  induction fuel generalizing taken s with
  | zero => exact .refl _
  | succ fuel ih =>
    rw [prologTokens, prologTokens]
    cases hdrop : s.dropWhile isSpace with
    | nil => exact .refl _
    | cons c u =>
      have hu : c :: u <:+ s := suffix_of_dropWhile hdrop
      by_cases hletter : c = '<' ∧ ∃ d ∈ u.head?, d ∈ wideLetters
      · -- the root element has such a letter at the front of its name
        obtain ⟨rfl, d, hd, hletter⟩ := hletter
        obtain ⟨v, rfl⟩ := List.head?_eq_some_iff.mp hd
        refine .inr ⟨?_, ((hasWideLetter_cons hletter v).cons _).of_suffix hu⟩
        rcases mem_wideLetters_iff.mp hletter with rfl | rfl | rfl <;> rfl
      -- whether the prolog ends here is seen alike
      · have hroot : (decide (c = '<') && u.head?.any Alphabet.standard.starts) =
            (decide (c = '<') && u.head?.any Alphabet.wide.starts) := by
          by_cases hc : c = '<'
          · cases u with
            | nil => rfl
            | cons d v =>
              have hd : d ∉ wideLetters := fun hd => hletter ⟨hc, d, rfl, hd⟩
              exact congrArg _ (starts_of_not_mem hd)
          · rw [decide_eq_false hc]
            rfl
        dsimp only
        rw [← hroot]
        split
        · exact .refl _
        rcases takePrologToken?_narrows atEnd c u with hsame | ⟨hnone, hs⟩
        · rw [hsame]
          cases htoken : takePrologToken? .wide atEnd c u with
          | none => exact .refl _
          | some next =>
            obtain ⟨token, rest⟩ := next
            have hrest := (takePrologToken?_suffix htoken).trans ((List.suffix_cons c u).trans hu)
            exact (ih _ rest).mono fun hs => hs.of_suffix hrest
        · rw [hnone]
          exact .inr ⟨rfl, hs.of_suffix hu⟩

/-! ## Declarations -/

theorem toOption_bind_eq_none {ε β γ : Type} {x : Except ε β} (h : x.toOption = none)
    (f : β → Except ε γ) : (x >>= f).toOption = none := by
  cases x with
  | ok b => cases h
  | error e => rfl

theorem toOption_bind_of_forall {ε β γ : Type} {f : β → Except ε γ} (x : Except ε β)
    (h : ∀ b, (f b).toOption = none) : (x >>= f).toOption = none := by
  cases x with
  | ok b => exact h b
  | error e => rfl

/-- A text in quotes has a letter of the wide alphabet. -/
def HasWideLiteral (tokens : List PrologToken) : Prop :=
  ∃ text, .literal text ∈ tokens ∧ HasWideLetter text

section Declarations

variable {d : Declarations} {tokens others : List PrologToken}

theorem HasWideLiteral.of_suffix (h : HasWideLiteral others) (hs : others <:+ tokens) :
    HasWideLiteral tokens := by
  obtain ⟨text, hmem, hletter⟩ := h
  exact ⟨text, hs.subset hmem, hletter⟩

theorem HasWideLiteral.cons (h : HasWideLiteral tokens) (t : PrologToken) :
    HasWideLiteral (t :: tokens) :=
  h.of_suffix (List.suffix_cons t tokens)

theorem isEntityValue_narrows (fuel : Nat) (s : List Char) :
    Narrows (· = false) (HasWideLetter s) (isEntityValue .standard fuel s)
      (isEntityValue .wide fuel s) := by
  induction fuel generalizing s with
  | zero => exact .refl _
  | succ fuel ih =>
    cases s with
    | nil => exact .refl _
    | cons c s =>
      rw [isEntityValue, isEntityValue]
      split
      · exact .refl _
      split
      -- only the name in a reference can be read differently
      · rcases takeReference?_narrows s with hsame | ⟨hnone, hs⟩
        · rw [hsame]
          cases hreference : takeReference? .wide s with
          | none => exact .refl _
          | some taken =>
            obtain ⟨r, rest⟩ := taken
            have hrest := (takeReference?_suffix hreference).trans (List.suffix_cons c s)
            exact (ih rest).mono fun hs => hs.of_suffix hrest
        · rw [hnone]
          exact .inr ⟨rfl, hs.cons c⟩
      · exact (ih s).mono fun hs => hs.cons c

theorem entityBody_narrows (effective general : Bool) (tokens : List PrologToken) :
    Narrows (·.toOption = none) (HasWideLiteral tokens)
      (entityBody .standard d effective general tokens)
      (entityBody .wide d effective general tokens) := by
  unfold entityBody
  split
  · next v rest =>
    split
    · exact .refl _
    rcases isEntityValue_narrows (v.length + 1) v with hsame | ⟨hfalse, hletter⟩
    · rw [hsame]
      exact .refl _
    · cases hcounts : d.counts with
      | false => exact .refl _
      | true =>
        rw [hfalse]
        exact .inr ⟨rfl, v, List.mem_cons_self, hletter⟩
  · exact .refl _
  · exact .refl _

theorem entityDeclaration_narrows (tokens : List PrologToken) :
    Narrows (·.toOption = none) (HasWideLiteral tokens) (entityDeclaration .standard d tokens)
      (entityDeclaration .wide d tokens) := by
  unfold entityDeclaration
  split
  · exact (entityBody_narrows _ _ _).mono fun h => (h.cons _).cons _
  · exact (entityBody_narrows _ _ _).mono fun h => h.cons _
  · exact .refl _

theorem attributeDefinitions_narrows (state : AttributeState) (tokens : List PrologToken) :
    Narrows (·.toOption = none) (HasWideLiteral tokens)
      (attributeDefinitions .standard d state tokens)
      (attributeDefinitions .wide d state tokens) := by
  induction tokens generalizing state with
  | nil => exact .refl _
  | cons t rest ih =>
    have hnext (state : AttributeState) :
        Narrows (·.toOption = none) (HasWideLiteral (t :: rest))
          (attributeDefinitions .standard d state rest)
          (attributeDefinitions .wide d state rest) :=
      (ih state).mono fun h => h.cons t
    -- a default in quotes is the only place where letters are looked at
    have hvalue (v : List Char) (ht : t = .literal v) :
        Narrows (·.toOption = none) (HasWideLiteral (t :: rest))
          (if !d.counts || isAttributeValue .standard d.complete (v.length + 1) v then
            attributeDefinitions .standard d .next rest else .error .malformed)
          (if !d.counts || isAttributeValue .wide d.complete (v.length + 1) v then
            attributeDefinitions .wide d .next rest else .error .malformed) := by
      rcases isAttributeValue_narrows d.complete (v.length + 1) v with
        hsame | ⟨hfalse, hletter⟩
      · rw [hsame]
        split
        · exact hnext _
        · exact .refl _
      · rw [hfalse, Bool.or_false]
        cases hcounts : d.counts with
        | false => exact hnext _
        | true => exact .inr ⟨rfl, v, ht ▸ List.mem_cons_self, hletter⟩
    unfold attributeDefinitions
    dsimp only
    split
    case h_3 =>
      split
      · exact hnext _
      · split
        · exact hnext _
        · exact .refl _
    case h_10 =>
      split
      · exact hnext _
      · split
        · exact hnext _
        · exact .refl _
    case h_11 v => exact hvalue v rfl
    case h_12 v => exact hvalue v rfl
    all_goals first
      | exact hnext _
      | exact .refl _

/-- What follows a declaration is read on if the declaration is in order. -/
theorem continued_narrows {fuel : Nat}
    (hnext : ∀ tokens, Narrows (·.toOption = none) (HasWideLiteral tokens)
      (internalSubset .standard fuel d tokens) (internalSubset .wide fuel d tokens))
    (x y : Continued) : Narrows (·.toOption = none) (HasWideLiteral tokens) x y →
    (∀ rest, y = .ok rest → rest <:+ tokens) →
    Narrows (·.toOption = none) (HasWideLiteral tokens)
      (match x with
        | .ok rest => internalSubset .standard fuel d rest
        | .error e => .error e)
      (match y with
        | .ok rest => internalSubset .wide fuel d rest
        | .error e => .error e) := by
  intro hxy hrest
  rcases hxy with rfl | ⟨hx, hletter⟩
  · cases x with
    | ok rest => exact (hnext rest).mono fun h => h.of_suffix (hrest rest rfl)
    | error e => exact .refl _
  · cases x with
    | ok rest => cases hx
    | error e => exact .inr ⟨rfl, hletter⟩

theorem internalSubset_narrows (fuel : Nat) (d : Declarations) (tokens : List PrologToken) :
    Narrows (·.toOption = none) (HasWideLiteral tokens) (internalSubset .standard fuel d tokens)
      (internalSubset .wide fuel d tokens) := by
  induction fuel generalizing d tokens with
  | zero => exact .refl _
  | succ fuel ih =>
    unfold internalSubset
    split
    · exact .refl _
    · exact (ih _ _).mono fun h => h.cons _
    · exact (ih _ _).mono fun h => h.cons _
    · exact (ih _ _).mono fun h => h.cons _
    · next keyword rest =>
      -- only the texts in quotes of entities and attribute lists depend on letters
      refine (?_ : Narrows _ (HasWideLiteral rest) _ _).mono fun h => h.cons _
      dsimp only
      by_cases hentity : keyword = "ENTITY".toList
      · rw [if_pos hentity, if_pos hentity]
        exact continued_narrows (ih d) _ _ (entityDeclaration_narrows rest) fun _ => entityDeclaration_suffix
      rw [if_neg hentity, if_neg hentity]
      by_cases hattributes : keyword = "ATTLIST".toList
      · rw [if_pos hattributes, if_pos hattributes]
        refine continued_narrows (ih d) _ _ ?_ fun after h => ?_
        · split
          · exact (attributeDefinitions_narrows _ _).mono fun h => h.cons _
          · exact .refl _
        · split at h
          · exact (attributeDefinitions_suffix h).trans (List.suffix_cons _ _)
          · cases h
      rw [if_neg hattributes, if_neg hattributes]
      refine continued_narrows (ih d) _ _ (.refl _) fun after h => ?_
      split at h
      · exact elementDeclaration_suffix h
      split at h
      · exact notationDeclaration_suffix h
      · cases h
    · exact .refl _

theorem documentTypeEnd_narrows (tokens : List PrologToken) :
    Narrows (·.toOption = none) (HasWideLiteral tokens) (documentTypeEnd .standard d tokens)
      (documentTypeEnd .wide d tokens) := by
  unfold documentTypeEnd
  split
  · next rest =>
    rcases internalSubset_narrows (rest.length + 1) d rest with hsame | ⟨hnone, hletter⟩
    · rw [hsame]
      exact .refl _
    · exact .inr ⟨toOption_bind_eq_none hnone _, hletter.cons _⟩
  · exact .refl _

theorem documentType_narrows (tokens : List PrologToken) :
    Narrows (·.toOption = none) (HasWideLiteral tokens) (documentType .standard d tokens)
      (documentType .wide d tokens) := by
  unfold documentType
  split
  · next name keyword p rest =>
    have hrest : rest <:+ .name name :: .name keyword :: .literal p :: rest :=
      List.suffix_append [_, _, _] rest
    dsimp only
    split
    · exact (documentTypeEnd_narrows rest).mono fun h => h.of_suffix hrest
    split
    · split
      · exact (documentTypeEnd_narrows _).mono fun h => (h.cons _).of_suffix hrest
      · exact .refl _
    · exact .refl _
  · exact (documentTypeEnd_narrows _).mono fun h => h.cons _
  · exact .refl _

theorem dropMisc_suffix (tokens : List PrologToken) : dropMisc tokens <:+ tokens := by
  fun_induction dropMisc tokens with
  | case1 rest ih => exact ih.trans (List.suffix_cons _ rest)
  | case2 rest ih => exact ih.trans (List.suffix_cons _ rest)
  | case3 => exact List.suffix_refl _

end Declarations

/-! ## Documents -/

/-- The document with another alphabet of names. -/
def Source.withAlphabet (src : Source) (α : Alphabet) : Source := { src with alphabet := α }

variable {src : Source}

theorem readProlog_narrows (src : Source) :
    Narrows (·.toOption = none) (HasWideLetter src.chars) (readProlog (src.withAlphabet .standard))
      (readProlog (src.withAlphabet .wide)) := by
  unfold readProlog Source.withAlphabet
  dsimp only
  generalize decide (src.ending ≠ .illegal) = atEnd
  generalize (⟨src.standalone, false, false⟩ : Declarations) = d
  rcases prologTokens_narrows atEnd (src.chars.length + 1) [] src.chars with
    hsame | ⟨hnone, hletter⟩
  · rw [hsame]
    have hliteral {text : List Char} : PrologToken.literal text ∈ (prologTokens .wide atEnd
        (src.chars.length + 1) [] src.chars).1 → PrologToken.literal text ∈ [] ∨ text ⊆ src.chars :=
      subset_of_mem_prologTokens
    generalize prologTokens .wide _ _ _ _ = taken at hliteral
    obtain ⟨tokens, root⟩ := taken
    have hcause (h : HasWideLiteral (dropMisc tokens)) : HasWideLetter src.chars := by
      obtain ⟨text, hmem, hletter⟩ := h
      rcases hliteral ((dropMisc_suffix tokens).subset hmem) with hnil | hsubset
      · cases hnil
      · exact hletter.of_subset hsubset
    dsimp only
    split
    · next keyword rest htokens =>
      split
      · rcases documentType_narrows (d := d) rest with hsame | ⟨hnone, hletter⟩
        · rw [hsame]
          exact .refl _
        · refine .inr ⟨toOption_bind_eq_none hnone _, hcause ?_⟩
          rw [htokens]
          exact hletter.cons _
      · exact .refl _
    · exact .refl _
  · generalize prologTokens .standard _ _ _ _ = taken at hnone
    obtain ⟨tokens, root⟩ := taken
    obtain rfl : root = none := hnone
    -- without the root element there is no document, whatever the tokens are
    refine .inr ⟨?_, hletter⟩
    dsimp only
    split
    · split
      · exact toOption_bind_of_forall _ fun r => by cases dropMisc r.2 <;> rfl
      · rfl
    · exact toOption_bind_of_forall _ fun r => by cases dropMisc r.2 <;> rfl

theorem scanContent_narrows (complete : Bool) (fuel : Nat) (names : List (List Char)) (events : List Event)
    (s : List Char) :
    Narrows (·.2 = none) (HasWideLetter s) (scanContent .standard complete fuel names events s)
      (scanContent .wide complete fuel names events s) := by
  induction fuel generalizing names events s with
  | zero => exact .refl _
  | succ fuel ih =>
    have hgo {names : List (List Char)} {events : List Event} {rest : List Char}
        (hrest : rest <:+ s) :
        Narrows (·.2 = none) (HasWideLetter s)
          (scanContent .standard complete fuel names events rest)
          (scanContent .wide complete fuel names events rest) :=
      (ih names events rest).mono fun h => h.of_suffix hrest
    unfold scanContent
    split
    · exact .refl _
    · -- an end tag
      next t =>
      have ht : t <:+ '<' :: '/' :: t := List.suffix_append ['<', '/'] t
      rcases takeEndTag?_narrows t with hsame | ⟨hnone, hletter⟩
      · rw [hsame]
        split
        · next htag =>
          split
          · dsimp only
            split
            · exact .refl _
            · exact hgo ((takeEndTag?_suffix htag).trans ht)
          · exact .refl _
        · exact .refl _
      · rw [hnone]
        exact .inr ⟨rfl, hletter.of_suffix ht⟩
    · -- a comment or a section
      next t =>
      have ht : t <:+ '<' :: '!' :: t := List.suffix_append ['<', '!'] t
      split
      · next hword =>
        split
        · next hcomment =>
            exact hgo (((dropComment?_suffix hcomment).trans (dropWord?_suffix hword)).trans ht)
        · exact .refl _
      · split
        · next hsection =>
            obtain ⟨u, hword, hsection⟩ := Option.bind_eq_some_iff.mp hsection
            exact hgo (((takeSection?_suffix hsection).trans (dropWord?_suffix hword)).trans ht)
        · exact .refl _
    · -- an instruction
      next t =>
      have ht : t <:+ '<' :: '?' :: t := List.suffix_append ['<', '?'] t
      rcases dropInstruction?_narrows t with hsame | ⟨hnone, hletter⟩
      · rw [hsame]
        split
        · next hinstruction => exact hgo ((dropInstruction?_suffix hinstruction).trans ht)
        · exact .refl _
      · rw [hnone]
        exact .inr ⟨rfl, hletter.of_suffix ht⟩
    · -- a start tag
      next t _ _ _ =>
      have ht : t <:+ '<' :: t := List.suffix_cons '<' t
      rcases takeStartTag?_narrows complete (fuel + 1) t with hsame | ⟨hnone, hletter⟩
      · rw [hsame]
        split
        · next htag => exact hgo ((takeStartTag?_suffix htag).trans ht)
        · next htag =>
          dsimp only
          split
          · exact .refl _
          · exact hgo ((takeStartTag?_suffix htag).trans ht)
        · exact .refl _
      · rw [hnone]
        exact .inr ⟨rfl, hletter.of_suffix ht⟩
    · -- a reference
      next t =>
      have ht : t <:+ '&' :: t := List.suffix_cons '&' t
      rcases takeReference?_narrows t with hsame | ⟨hnone, hletter⟩
      · rw [hsame]
        split
        · next hreference =>
          split
          · exact hgo ((takeReference?_suffix hreference).trans ht)
          · exact .refl _
        · exact .refl _
      · rw [hnone]
        exact .inr ⟨rfl, hletter.of_suffix ht⟩
    · split
      · next hcharacters => exact hgo (takeCharacters?_suffix hcharacters)
      · exact .refl _

theorem isEpilog_narrows (fuel : Nat) (s : List Char) :
    Narrows (· = false) (HasWideLetter s) (isEpilog .standard fuel s) (isEpilog .wide fuel s) := by
  induction fuel generalizing s with
  | zero => exact .refl _
  | succ fuel ih =>
    unfold isEpilog
    have hdrop := List.dropWhile_suffix (l := s) isSpace
    generalize s.dropWhile isSpace = u at hdrop
    split
    · exact .refl _
    · next t =>
      have ht : t <:+ s := (List.suffix_append ['<', '?'] t).trans hdrop
      -- an instruction has a name, a comment has none
      rcases dropInstruction?_narrows t with hsame | ⟨hnone, hletter⟩
      · rw [hsame]
        split
        · next hinstruction =>
            exact (ih _).mono fun h => h.of_suffix ((dropInstruction?_suffix hinstruction).trans ht)
        · exact .refl _
      · rw [hnone]
        exact .inr ⟨rfl, hletter.of_suffix ht⟩
    · next t =>
      have ht : t <:+ s := (List.suffix_append ['<', '!', '-', '-'] t).trans hdrop
      split
      · next hcomment =>
          exact (ih _).mono fun h => h.of_suffix ((dropComment?_suffix hcomment).trans ht)
      · exact .refl _
    · exact .refl _

/-- The events behind a prolog are those of the content, and what follows it can be a fault. -/
theorem ofSource_withAlphabet {α : Alphabet} {root : List Char}
    (h : readProlog (src.withAlphabet α) = .ok (complete, root)) :
    Event.ofSource (src.withAlphabet α) =
      match scanContent α complete (root.length + 1) [] [] root with
      | (events, none) => (events.reverse, some .malformed)
      | (events, some rest) =>
        if src.ending = .complete && isEpilog α (rest.length + 1) rest then (events.reverse, none)
        else (events.reverse, some .malformed) := by
  rw [Event.ofSource, h]
  rfl

/-- The events are the same in both alphabets, or there is a fault behind them in the standard
    one. -/
theorem ofSource_narrows (src : Source) :
    Narrows (·.2 ≠ none) (HasWideLetter src.chars) (Event.ofSource (src.withAlphabet .standard))
      (Event.ofSource (src.withAlphabet .wide)) := by
  rcases readProlog_narrows src with hsame | ⟨hnone, hletter⟩
  · cases hprolog : readProlog (src.withAlphabet .wide) with
    | error e =>
      rw [hprolog] at hsame
      rw [Event.ofSource, Event.ofSource, hprolog, hsame]
      exact .refl _
    | ok r =>
      obtain ⟨complete, root⟩ := r
      rw [hprolog] at hsame
      rw [ofSource_withAlphabet hsame, ofSource_withAlphabet hprolog]
      have hroot : root <:+ (src.withAlphabet .wide).chars := readProlog_suffix hprolog
      rcases scanContent_narrows complete (root.length + 1) [] [] root with
        hsame | ⟨hnone, hletter⟩
      · rw [hsame]
        split
        · exact .refl _
        · next events rest hscan =>
          have hrest : rest <:+ root := scanContent_suffix (congrArg Prod.snd hscan)
          -- behind the root element, only instructions can differ
          rcases isEpilog_narrows (rest.length + 1) rest with hsame | ⟨hfalse, hletter⟩
          · rw [hsame]
            exact .refl _
          · rw [hfalse, Bool.and_false]
            exact .inr ⟨Option.some_ne_none _, hletter.of_suffix (hrest.trans hroot)⟩
      · refine .inr ⟨?_, hletter.of_suffix hroot⟩
        split
        · exact Option.some_ne_none _
        · next hscan =>
          rw [hscan] at hnone
          cases hnone
  · refine .inr ⟨?_, hletter⟩
    rw [Event.ofSource]
    split
    · exact Option.some_ne_none _
    · next hprolog =>
      rw [hprolog] at hnone
      cases hnone

/-- A document has the same value in both alphabets, or it is refused in the standard one. -/
theorem readDocument_narrows (src : Source) :
    Narrows (·.toOption = none) (HasWideLetter src.chars)
      (readDocument (src.withAlphabet .standard)) (readDocument (src.withAlphabet .wide)) := by
  rcases ofSource_narrows src with hsame | ⟨hfault, hletter⟩
  · left
    rw [readDocument, readDocument, hsame]
    rfl
  · refine .inr ⟨?_, hletter⟩
    show (readDocument (src.withAlphabet .standard)).toOption = none
    rw [toOption_readDocument]
    simp only [if_pos (Option.isSome_iff_ne_none.mpr hfault)]
    exact Option.bind_fun_none _

end PropertyList.Xml
