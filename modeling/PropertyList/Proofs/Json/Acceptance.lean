/-
  PropertyList.Proofs.Json.Acceptance

  JSON text is accepted exactly by its grammar.  What is read has been derived, and what can
  be derived is read if it is not nested too deeply; a run only finds too many containers
  where the text has too many open brackets outside of strings.
-/
import PropertyList.Proofs.Json.Completeness
import PropertyList.Proofs.Json.Nesting

namespace PropertyList

namespace Json

/-! ## Text without brackets -/

/-- A character that is neither a bracket nor a quote. -/
def IsFlat (c : Char) : Prop := c ∉ ['"', '[', ']', '\x7b', '\x7d']

instance : DecidablePred IsFlat := fun c => inferInstanceAs (Decidable (c ∉ _))

theorem isFlat_of_isDigit {c : Char} (h : c.isDigit = true) : IsFlat c := by
  intro hc
  have hnone : ∀ d ∈ ['"', '[', ']', '\x7b', '\x7d'], d.isDigit = false :=
    forall_of_all (by decide)
  rw [hnone c hc] at h
  cases h

theorem IsBlanks.isFlat {w : List Char} (h : IsBlanks w) : ∀ c ∈ w, IsFlat c := by
  intro c hc hmem
  have hnone : ∀ d ∈ ['"', '[', ']', '\x7b', '\x7d'], isBlank (.scalar d) = false :=
    forall_of_all (by decide)
  have hblank := h c hc
  rw [hnone c hmem] at hblank
  cases hblank

theorem IsTail.isFlat {s : List Char} (h : IsTail s) : ∀ c ∈ s, IsFlat c := by
  cases h with
  | nil => exact List.forall_mem_nil _
  | exponent hletter hsign hds _ =>
    have hsigned : ∀ c ∈ ['+', '-'], IsFlat c := forall_of_all (by decide)
    simp only [List.mem_cons, List.not_mem_nil, or_false] at hsign
    refine List.forall_mem_cons.mpr ⟨?_, List.forall_mem_append.mpr ⟨?_, ?_⟩⟩
    · rcases hletter with rfl | rfl <;> decide
    · rcases hsign with rfl | rfl | rfl
      · exact List.forall_mem_nil _
      · exact List.forall_mem_singleton.mpr (hsigned _ List.mem_cons_self)
      · exact List.forall_mem_singleton.mpr (hsigned _ (.tail _ List.mem_cons_self))
    · exact fun c hc => isFlat_of_isDigit (hds c hc)

theorem IsReal.isFlat {s : List Char} (h : IsReal s) : ∀ c ∈ s, IsFlat c := by
  cases h with
  | pointed hwhole hpart _ htail =>
    refine List.forall_mem_append.mpr ⟨fun c hc => isFlat_of_isDigit (hwhole.digits c hc), ?_⟩
    refine List.forall_mem_cons.mpr ⟨by decide, List.forall_mem_append.mpr ⟨?_, htail.isFlat⟩⟩
    exact fun c hc => isFlat_of_isDigit (hpart c hc)
  | plain hwhole htail _ =>
    exact List.forall_mem_append.mpr
      ⟨fun c hc => isFlat_of_isDigit (hwhole.digits c hc), htail.isFlat⟩

theorem isFlat_signed {s : List Char} (h : ∀ c ∈ s, IsFlat c) (negative : Bool) :
    ∀ c ∈ signed negative s, IsFlat c := by
  cases negative with
  | true => exact List.forall_mem_cons.mpr ⟨by decide, h⟩
  | false => exact h

/-- Brackets and strings apart, there are no containers in a text. -/
theorem unquoted_flat {w : List Char} (h : ∀ c ∈ w, IsFlat c) (s : Text) :
    unquoted .outside (Text.ofChars w ++ s) = Text.ofChars w ++ unquoted .outside s := by
  refine unquoted_of_ne (fun c hc => ?_) s
  obtain ⟨d, hd, rfl⟩ := List.mem_map.mp hc
  intro e
  rw [CodePoint.scalar.inj e] at hd
  exact h _ hd (by decide)

theorem countP_flat {w : List Char} (h : ∀ c ∈ w, IsFlat c) :
    (Text.ofChars w).countP isOpening = 0 ∧ (Text.ofChars w).countP isClosing = 0 := by
  rw [List.countP_eq_zero, List.countP_eq_zero]
  constructor
  · intro c hc hopening
    obtain ⟨d, hd, rfl⟩ := List.mem_map.mp hc
    simp only [isOpening, Bool.or_eq_true, decide_eq_true_eq, CodePoint.scalar.injEq] at hopening
    rcases hopening with rfl | rfl <;> exact h _ hd (by decide)
  · intro c hc hclosing
    obtain ⟨d, hd, rfl⟩ := List.mem_map.mp hc
    simp only [isClosing, Bool.or_eq_true, decide_eq_true_eq, CodePoint.scalar.injEq] at hclosing
    rcases hclosing with rfl | rfl <;> exact h _ hd (by decide)

/-! ## Strings -/

theorem ne_of_hexDigit? {c : Char} {n : Nat} (h : (CodePoint.scalar c).hexDigit? = some n) :
    CodePoint.scalar c ≠ .scalar '"' ∧ CodePoint.scalar c ≠ .scalar '\\' := by
  constructor <;> intro e <;> rw [e] at h <;> cases h

theorem IsHex.ne {n : Nat} {w : List Char} (h : IsHex n w) :
    ∀ c ∈ Text.ofChars w, c ≠ .scalar '"' ∧ c ≠ .scalar '\\' := by
  cases h with
  | digits ha hb hc hd =>
    refine List.forall_mem_cons.mpr ⟨ne_of_hexDigit? ha, List.forall_mem_cons.mpr ⟨?_, ?_⟩⟩
    · exact ne_of_hexDigit? hb
    · exact List.forall_mem_cons.mpr
        ⟨ne_of_hexDigit? hc, List.forall_mem_singleton.mpr (ne_of_hexDigit? hd)⟩

/-- No unit ends the string that it stands in. -/
theorem SpellsUnit.unquoted {u : CodePoint} {w : List Char} (h : SpellsUnit u w) (s : Text) :
    unquoted .inside (Text.ofChars w ++ s) = unquoted .inside s := by
  cases h with
  | plain _ hquote hslash =>
    refine unquoted_inside (List.forall_mem_singleton.mpr ⟨fun e => ?_, fun e => ?_⟩) s
    · exact hquote (CodePoint.scalar.inj e)
    · exact hslash (CodePoint.scalar.inj e)
  | short _ => rfl
  | code h => exact unquoted_inside h.ne s

theorem SpellsText.unquoted {t : Text} {w : List Char} (h : SpellsText t w) (s : Text) :
    unquoted .outside (Text.ofChars w ++ s) = unquoted .outside s := by
  have hunits {us : Text} {w : List Char} (h : SpellsUnits us w) (s : Text) :
      Json.unquoted .inside (Text.ofChars w ++ s) = Json.unquoted .inside s := by
    induction h with
    | nil => rfl
    | cons hu _ ih => rw [Text.ofChars_append, List.append_assoc, hu.unquoted, ih]
  cases h with
  | quoted h =>
    rw [Text.ofChars_cons, Text.ofChars_append, List.cons_append, List.append_assoc]
    exact hunits h (.scalar '"' :: s)

/-! ## Tokens -/

/-- Outside of strings, a text starts with brackets for the containers of a token. -/
def HasBrackets (t : Token) (w : List Char) : Prop :=
  ∃ u, (∀ s, unquoted .outside (Text.ofChars w ++ s) = u ++ unquoted .outside s) ∧
    u.countP isOpening = (Lexeme.token t).openings ∧
    u.countP isClosing = (Lexeme.token t).closings

theorem hasBrackets_flat {t : Token} {w : List Char} (hw : ∀ c ∈ w, IsFlat c)
    (hopenings : (Lexeme.token t).openings = 0) (hclosings : (Lexeme.token t).closings = 0) :
    HasBrackets t w := by
  obtain ⟨hopening, hclosing⟩ := countP_flat hw
  exact ⟨Text.ofChars w, unquoted_flat hw, hopening.trans hopenings.symm,
    hclosing.trans hclosings.symm⟩

/-- A token has brackets for the containers that it opens or closes, and no others. -/
theorem SpellsToken.hasBrackets {t : Token} {w : List Char} (h : SpellsToken t w) :
    HasBrackets t w := by
  cases h with
  | @punctuation c _ h =>
    -- a bracket stands outside of strings, so it counts
    have hquote : CodePoint.scalar c ≠ .scalar '"' :=
      @forall_loneTokens (fun p => CodePoint.scalar p.1 ≠ .scalar '"') _ c t h (by decide)
    refine ⟨[.scalar c], unquoted_of_ne (List.forall_mem_singleton.mpr hquote), ?_⟩
    exact @forall_loneTokens (fun p => [CodePoint.scalar p.1].countP isOpening =
      (Lexeme.token p.2).openings ∧ [CodePoint.scalar p.1].countP isClosing =
      (Lexeme.token p.2).closings) _ c t h (by decide)
  | @scalar _ x _ ht h =>
    cases h with
    | null =>
      obtain rfl := @Token.scalar?_inj t .null ht rfl
      exact hasBrackets_flat (forall_of_all (by decide)) rfl rfl
    | true =>
      obtain rfl := @Token.scalar?_inj t (.bool true) ht rfl
      exact hasBrackets_flat (forall_of_all (by decide)) rfl rfl
    | false =>
      obtain rfl := @Token.scalar?_inj t (.bool false) ht rfl
      exact hasBrackets_flat (forall_of_all (by decide)) rfl rfl
    | int negative hds _ =>
      obtain rfl := @Token.scalar?_inj t (.int _) ht rfl
      exact hasBrackets_flat (isFlat_signed (fun c hc => isFlat_of_isDigit (hds.digits c hc)) _)
        rfl rfl
    | @real negative s x hs _ =>
      obtain rfl := @Token.scalar?_inj t (.real x) ht rfl
      exact hasBrackets_flat (isFlat_signed hs.isFlat _) rfl rfl
    | @text u _ h =>
      obtain rfl := @Token.scalar?_inj t (.text u) ht rfl
      -- whatever brackets the string holds are quoted
      exact ⟨[], h.unquoted, rfl, rfl⟩

/-! ## Nesting -/

/-- Something that is no token opens no container, and neither does a token that closes one. -/
theorem exists_token_of_openings {l : Lexeme} (h : l.openings = 1) :
    ∃ t, l = .token t ∧ l.closings = 0 := by
  unfold Lexeme.openings at h
  split at h
  · exact ⟨_, rfl, rfl⟩
  · exact ⟨_, rfl, rfl⟩
  · cases h

/-- A run over a text is only too deep where too many brackets are open at once. -/
theorem exists_of_runText {st : State} {s : List Char}
    (h : st.runText (Text.ofChars s) = .error .tooDeep) :
    ∃ before after, unquoted .outside (Text.ofChars s) = before ++ after ∧
      depthLimit + 1 + before.countP isClosing ≤ st.stack.length + before.countP isOpening := by
  induction scans s generalizing st with
  | finish ha =>
    rw [st.runText_finish ha, State.finish] at h
    split at h <;> cases h
  | stuck ha hc hnot =>
    rw [st.runText_blanks ha] at h
    obtain ⟨e, hstep, hrun⟩ := @run_stuck st _ _ _ hc hnot
    obtain rfl := Except.error.inj (hrun.symm.trans h)
    obtain ⟨t, ht, -⟩ := exists_token_of_openings (full_of_step hstep).1
    exact absurd ht (hnot t)
  | @token a w s t ha hw htake _ ih =>
    rw [st.runText_blanks ha, st.runText_token hw htake] at h
    obtain ⟨u, hu, hopenings, hclosings⟩ := hw.hasBrackets
    obtain ⟨hopening, hclosing⟩ := countP_flat ha.isFlat
    -- the blanks and the token are in front of what follows
    have hfront : unquoted .outside (Text.ofChars (a ++ (w ++ s))) =
        Text.ofChars a ++ (u ++ unquoted .outside (Text.ofChars s)) := by
      rw [Text.ofChars_append, Text.ofChars_append, unquoted_flat ha.isFlat, hu]
    cases hstep : st.step ⟨.token t, Text.ofChars (w ++ s)⟩ with
    | error e =>
      -- the token opens the container for which there is no room
      rw [hstep] at h
      obtain rfl := Except.error.inj h
      obtain ⟨hopens, hfull⟩ := full_of_step hstep
      obtain ⟨-, -, hcloses⟩ := exists_token_of_openings hopens
      refine ⟨Text.ofChars a ++ u, _, hfront.trans (List.append_assoc _ _ _).symm, ?_⟩
      rw [List.countP_append, List.countP_append, hopening, hclosing, hopenings, hclosings, hopens,
        hcloses]
      omega
    | ok st' =>
      rw [hstep] at h
      obtain ⟨before, after, hrest, hcount⟩ := ih h
      have hcounts := counts_step hstep
      rw [Counts] at hcounts
      dsimp only at hcounts
      refine ⟨Text.ofChars a ++ (u ++ before), after, ?_, ?_⟩
      · rw [hfront, hrest, List.append_assoc, List.append_assoc]
      · simp only [List.countP_append, hopening, hclosing, hopenings, hclosings]
        omega

theorem NestsWithin.runText_ne {n : Nat} {t : List Char} (h : NestsWithin n t)
    (hn : n ≤ depthLimit) :
    State.runText ⟨[], .value⟩ (Text.ofChars t) ≠ .error .tooDeep := by
  intro hrun
  obtain ⟨before, after, htext, hcount⟩ := exists_of_runText hrun
  have hwithin := h before after htext
  rw [List.length_nil] at hcount
  omega

/-! ## Texts -/

theorem readText_eq (text : Text) : readText text =
    match State.runText ⟨[], .value⟩ text with
    | .ok v => .ok v
    | .error (.mistake m rest) => .error (.mistake m (position text rest))
    | .error (.constant name) => .error (.constant name)
    | .error .longInteger => .error .longInteger
    | .error .tooDeep => .error .tooDeep := rfl

/-- A text that is not nested too deeply is read exactly if it can be derived. -/
theorem readText_iff {n : Nat} {t : List Char} (h : NestsWithin n t) (hn : n ≤ depthLimit)
    {v : Value} : readText (Text.ofChars t) = .ok v ↔ Derives IsShort (.element v) t := by
  constructor
  · exact derives_of_readText
  · intro hderives
    have hrun := hderives.runText.resolve_right (h.runText_ne hn)
    rw [readText_eq, hrun]

theorem readText_ne_tooDeep {n : Nat} {t : List Char} (h : NestsWithin n t)
    (hn : n ≤ depthLimit) : readText (Text.ofChars t) ≠ .error .tooDeep := by
  intro hread
  rw [readText_eq] at hread
  split at hread
  case h_5 hrun => exact h.runText_ne hn hrun
  all_goals cases hread

end Json

namespace Encoding

open Json

theorem json_read_of_error {bytes : List UInt8} {f : ReadFault} (h : Json.read bytes = .error f) :
    json.read bytes = .error (.json f) := by
  rw [read]
  simp only [h]

theorem failureClass_of_ne_tooDeep {f : ReadFault} (h : f ≠ .tooDeep) :
    (ReadFailure.json f).failureClass = .parse := by
  cases f with
  | tooDeep => exact absurd rfl h
  | _ => rfl

/-- JSON text is accepted exactly by its grammar, and as what it denotes there; all other text is
    refused as malformed. -/
theorem json_read_grammar {t : List Char} (hzero : '\x00' ∉ t) (hmark : t.head? ≠ some '\uFEFF')
    (hnest : NestsWithin 700 t) :
    (∀ d, json.read (Utf8.encodeChars t) = .ok d ↔
      ∃ v, Derives IsShort (.element v) t ∧ d = ⟨.only .json, some (.ofValue v)⟩) ∧
    ((¬ ∃ v, Derives IsShort (.element v) t) →
      ∃ f, json.read (Utf8.encodeChars t) = .error f ∧ f.failureClass = .parse) := by
  have hlimit : 700 ≤ depthLimit := by decide
  have hread : Json.read (Utf8.encodeChars t) = readText (Text.ofChars t) := by
    rw [Json.read, decodeText?_encodeChars (fun h => hzero (List.mem_of_mem_take h)) hmark]
  have haccepts {v : Value} : Json.read (Utf8.encodeChars t) = .ok v ↔
      Derives IsShort (.element v) t := by
    rw [hread]
    exact readText_iff hnest hlimit
  refine ⟨fun d => ⟨fun h => ?_, ?_⟩, fun hnone => ?_⟩
  · -- what is accepted has been read, and so it is derived
    cases hv : Json.read (Utf8.encodeChars t) with
    | ok v =>
      rw [json_read_of_ok hv] at h
      exact ⟨v, haccepts.mp hv, (Except.ok.inj h).symm⟩
    | error f =>
      rw [json_read_of_error hv] at h
      cases h
  · rintro ⟨v, hv, rfl⟩
    exact json_read_of_ok (haccepts.mpr hv)
  · cases hv : Json.read (Utf8.encodeChars t) with
    | ok v => exact absurd ⟨v, haccepts.mp hv⟩ hnone
    | error f =>
      refine ⟨.json f, json_read_of_error hv, failureClass_of_ne_tooDeep ?_⟩
      rintro rfl
      exact readText_ne_tooDeep hnest hlimit (hread.symm.trans hv)

/-- An object in which a key occurs twice, the second time with a pair of escaped surrogates. -/
def repeatedKey : List Char := "\x7b\"k\": -1,\n\"k\":\"\\ud83d\\ude00\"\x7d".toList

theorem json_read_repeatedKey :
    ('\x00' ∉ repeatedKey ∧ repeatedKey.head? ≠ some '\uFEFF' ∧ NestsWithin 700 repeatedKey) ∧
    json.read (Utf8.encodeChars repeatedKey) = .ok ⟨.only .json,
      some (.ofValue (.dict [(.text (Text.ofString "k"), .text [.scalar '😀'])]))⟩ := by
  have hzero : '\x00' ∉ repeatedKey := by decide
  have hmark : repeatedKey.head? ≠ some '\uFEFF' := by decide
  have hnest : NestsWithin 700 repeatedKey := by
    intro before after htext
    have hall : (unquoted .outside (Text.ofChars repeatedKey)).countP isOpening = 1 := by decide
    rw [htext, List.countP_append] at hall
    omega
  have hblank {c : Char} (hc : isBlank (.scalar c) = true) : IsBlanks [c] :=
    List.forall_mem_singleton.mpr hc
  have hkey := SpellsText.quoted
    (.cons (@SpellsUnit.plain 'k' (by decide) (by decide) (by decide)) .nil)
  -- the first entry
  have hnumber := @SpellsScalar.int IsShort true _ (isWhole_single (c := '1') rfl)
    (Nat.le_of_ble_eq_true rfl)
  have hfirst := Derives.member isBlanks_nil hkey isBlanks_nil
    (.element (hblank (c := ' ') rfl) (.scalar hnumber) isBlanks_nil)
  -- the second entry
  have hhigh := @SpellsUnit.code (.surrogate 0x3D) _
    (@IsHex.digits 'd' '8' '3' 'd' _ _ _ _ rfl rfl rfl rfl)
  have hlow := @SpellsUnit.code (.surrogate 0x600) _
    (@IsHex.digits 'd' 'e' '0' '0' _ _ _ _ rfl rfl rfl rfl)
  have hjoined : joinPairs [.surrogate 0x3D, .surrogate 0x600] = [.scalar '😀'] := by decide
  have hpair := SpellsText.quoted (.cons hhigh (.cons hlow .nil))
  rw [hjoined] at hpair
  have hsecond := @Derives.member IsShort _ _ _ _ _ _ (hblank (c := '\n') rfl) hkey isBlanks_nil
    (.element isBlanks_nil (.scalar (.text hpair)) isBlanks_nil)
  have hobject := Derives.element isBlanks_nil
    (.object (.nextMember (.firstMember hfirst) hsecond)) isBlanks_nil
  have hderives : Derives IsShort
      (.element (.dict [(.text (Text.ofString "k"), .text [.scalar '😀'])])) repeatedKey :=
    Eq.mp (congrArg (Derives IsShort _) (by decide)) hobject
  exact ⟨⟨hzero, hmark, hnest⟩,
    ((json_read_grammar hzero hmark hnest).1 _).mpr ⟨_, hderives, rfl⟩⟩

end Encoding

end PropertyList
