/-
  PropertyList.Proofs.Json.Completeness

  What can be derived is read.  The machine goes over each phrase of a derivation as one
  piece: over a value it comes to where the value is delivered, over elements or members to
  where they fill their frame.  On the way it can only stop at one container too many.
-/
import PropertyList.Proofs.Json.Machine
import PropertyList.Proofs.Json.Derivation

namespace PropertyList.Json

/-! ## Over a piece of text -/

/-- A run goes on as another one, or finds one container too many. -/
def Goes (st : State) (s : List Char) (st' : State) (s' : List Char) : Prop :=
  st.runText (Text.ofChars s) = st'.runText (Text.ofChars s') ∨
    st.runText (Text.ofChars s) = .error .tooDeep

section Goes

variable {st st' st'' : State} {s s' s'' a w : List Char} {t : Token}

theorem Goes.trans (h : Goes st s st' s') (h' : Goes st' s' st'' s'') : Goes st s st'' s'' := by
  rcases h with h | h
  · rcases h' with h' | h'
    · exact .inl (h.trans h')
    · exact .inr (h.trans h')
  · exact .inr h

theorem goes_blanks (ha : IsBlanks a) (st : State) (s : List Char) : Goes st (a ++ s) st s :=
  .inl (st.runText_blanks ha s)

/-- A token is taken with one step. -/
theorem goes_token (hw : SpellsToken t w) (hs : t.isNumber = true → Ends (Text.ofChars s))
    (hst : ∀ start, st.step ⟨.token t, start⟩ = .ok st' ∨
      st.step ⟨.token t, start⟩ = .error .tooDeep) : Goes st (w ++ s) st' s := by
  have htake : takeLexeme (Text.ofChars (w ++ s)) = (.token t, Text.ofChars s) := by
    rw [Text.ofChars_append]
    exact hw.take hs
  have hrun := st.runText_token hw htake
  rcases hst (Text.ofChars (w ++ s)) with hst | hst
  · rw [hst] at hrun
    exact .inl hrun
  · rw [hst] at hrun
    exact .inr hrun

theorem goes_punctuation (c : Char) (hc : punctuation? (.scalar c) = some t) (s : List Char)
    (hst : ∀ start, st.step ⟨.token t, start⟩ = .ok st' ∨
      st.step ⟨.token t, start⟩ = .error .tooDeep) : Goes st (c :: s) st' s := by
  have hnumber : t.isNumber = false :=
    @forall_loneTokens (fun p => p.2.isNumber = false) _ c t hc (by decide)
  refine goes_token (.punctuation hc) (fun ht => ?_) hst
  rw [hnumber] at ht
  cases ht

end Goes

/-! ### Behind numbers -/

theorem IsBlanks.ends {b s : List Char} (hb : IsBlanks b) (hs : Ends (Text.ofChars s)) :
    Ends (Text.ofChars (b ++ s)) := by
  cases b with
  | nil => exact hs
  | cons c b => exact ends_blank (hb c List.mem_cons_self) _

theorem ends_punctuation {c : Char} {t : Token} (hc : punctuation? (.scalar c) = some t)
    (s : List Char) : Ends (Text.ofChars (c :: s)) :=
  ends_cons (@forall_loneTokens (fun p => isDigit (.scalar p.1) = false ∧
    CodePoint.scalar p.1 ≠ .scalar '.' ∧ CodePoint.scalar p.1 ≠ .scalar 'e' ∧
    CodePoint.scalar p.1 ≠ .scalar 'E') _ c t hc (by decide)) _

/-! ## Containers -/

section Containers

variable {stack : List Frame} {e : Expected} {w s : List Char}

theorem goes_scalar {x : Scalar} {t : Token} (ht : t.scalar? = some x)
    (hx : SpellsScalar IsShort x w) (he : e = .valueOrEnd ∨ e = .value)
    (hs : Ends (Text.ofChars s)) : Goes ⟨stack, e⟩ (w ++ s) (.deliver stack (.scalar x)) s := by
  refine goes_token (.scalar ht hx) (fun _ => hs) fun start => .inl ?_
  rw [step_eq_takeValue he]
  · exact takeValue_scalar ht
  · intro hl
    rw [Lexeme.token.inj hl] at ht
    cases ht

/-- A container is opened, unless there are too many, then it is filled, and closed. -/
theorem goes_container {first : Token} {before : Frame} (after : Frame) {c d : Char} {e' : Expected}
    (hfirst : (first, before) = (.beginArray, .array []) ∨
      (first, before) = (.beginObject, .object [] []))
    (hc : punctuation? (.scalar c) = some first) (hd : punctuation? (.scalar d) = some after.last)
    (he : e = .valueOrEnd ∨ e = .value) (he' : e' = after.first ∨ e' = .commaOrEnd)
    (h : Goes ⟨before :: stack, before.first⟩ (w ++ d :: s) ⟨after :: stack, e'⟩ (d :: s)) :
    Goes ⟨stack, e⟩ (c :: (w ++ [d]) ++ s) (.deliver stack after.value) s := by
  have hopen : Goes ⟨stack, e⟩ (c :: (w ++ d :: s))
      ⟨before :: stack, before.first⟩ (w ++ d :: s) := by
    refine goes_punctuation c hc _ fun start => ?_
    rw [step_first hfirst he, State.opened]
    split
    · exact .inl rfl
    · exact .inr rfl
  have hclose : Goes ⟨after :: stack, e'⟩ (d :: s) (.deliver stack after.value) s :=
    goes_punctuation d hd _ fun start => .inl (after.step_last stack start he')
  rw [List.cons_append, List.append_assoc, List.singleton_append]
  exact hopen.trans (h.trans hclose)

end Containers

/-! ## Phrases -/

/-- What the machine does with a phrase: it takes it to where it belongs.  A value is delivered, and
    items and entries are added to those of the frame. -/
def Phrase.IsTaken : Phrase → List Char → Prop
  | value v, w | element v, w => ∀ stack e s, (e = .valueOrEnd ∨ e = .value) →
      Ends (Text.ofChars s) → Goes ⟨stack, e⟩ (w ++ s) (.deliver stack v) s
  | elements vs, w => ∀ stack items e s, (e = .valueOrEnd ∨ e = .value) →
      Ends (Text.ofChars s) → Goes ⟨.array items :: stack, e⟩ (w ++ s)
        ⟨.array (vs.reverse ++ items) :: stack, .commaOrEnd⟩ s
  | member key v, w => ∀ stack entries last e s, (e = .keyOrEnd ∨ e = .key) →
      Ends (Text.ofChars s) → Goes ⟨.object entries last :: stack, e⟩ (w ++ s)
        ⟨.object (Value.setEntry entries (.text key) v) key :: stack, .commaOrEnd⟩ s
  | members es, w => ∀ stack entries last e s, (e = .keyOrEnd ∨ e = .key) →
      Ends (Text.ofChars s) → ∃ key, Goes ⟨.object entries last :: stack, e⟩ (w ++ s)
        ⟨.object (es.foldl (fun es (k, v) => Value.setEntry es k v) entries) key :: stack,
          .commaOrEnd⟩ s

/-- Every scalar has a token. -/
theorem SpellsScalar.exists_token {Fits : List Char → Prop} {x : Scalar} {w : List Char}
    (h : SpellsScalar Fits x w) : ∃ t : Token, t.scalar? = some x := by
  cases h with
  | null => exact ⟨.null, rfl⟩
  | true => exact ⟨.bool _, rfl⟩
  | false => exact ⟨.bool _, rfl⟩
  | int _ _ _ => exact ⟨.int _, rfl⟩
  | real _ _ _ => exact ⟨.real _, rfl⟩
  | text _ => exact ⟨.text _, rfl⟩

/-- The machine takes whatever can be derived. -/
theorem Derives.isTaken {phrase : Phrase} {w : List Char} (h : Derives IsShort phrase w) :
    phrase.IsTaken w := by
  -- the containers around a phrase and the text behind it are free, so that each rule only joins
  -- what the machine does with its parts
  induction h with
  | scalar hx =>
    intro stack e s he hs
    obtain ⟨t, ht⟩ := hx.exists_token
    exact goes_scalar ht hx he hs
  | emptyArray hw =>
    intro stack e s he _
    exact goes_container (.array []) (.inl rfl) rfl rfl he (.inl rfl) (goes_blanks hw _ _)
  | emptyObject hw =>
    intro stack e s he _
    exact goes_container (.object [] []) (.inr rfl) rfl rfl he (.inl rfl)
      (goes_blanks hw _ _)
  | @array vs w _ ih =>
    intro stack e s he _
    have hitems := ih stack [] .valueOrEnd (']' :: s) (.inl rfl) (ends_punctuation rfl s)
    have hvalue : (Frame.array (vs.reverse ++ [])).value = .array vs := by
      rw [List.append_nil, Frame.value, List.reverse_reverse]
    rw [← hvalue]
    exact goes_container _ (.inl rfl) rfl rfl he (.inr rfl) hitems
  | object _ ih =>
    intro stack e s he _
    obtain ⟨key, hentries⟩ := ih stack [] [] .keyOrEnd ('\x7d' :: s) (.inl rfl)
      (ends_punctuation rfl s)
    exact goes_container _ (.inr rfl) rfl rfl he (.inr rfl) hentries
  | element ha _ hb ih =>
    intro stack e s he hs
    rw [List.append_assoc, List.append_assoc]
    exact (goes_blanks ha _ _).trans ((ih stack e _ he (hb.ends hs)).trans (goes_blanks hb _ s))
  | firstElement _ ih => exact fun stack items e s he hs => ih (.array items :: stack) e s he hs
  | @nextElement vs v w w' _ _ ih ih' =>
    -- behind the comma, the frame already holds the elements in front of it
    intro stack items e s he hs
    have hitems := ih stack items e (',' :: (w' ++ s)) he (ends_punctuation rfl _)
    have hcomma := goes_punctuation ',' rfl (w' ++ s) fun start =>
      .inl ((Frame.array (vs.reverse ++ items)).step_comma stack start)
    have hlast := ih' (.array (vs.reverse ++ items) :: stack) .value s (.inr rfl) hs
    rw [List.append_assoc, List.cons_append, List.reverse_append, List.append_assoc]
    exact hitems.trans (hcomma.trans hlast)
  | @member key v a k b w ha hk hb _ ih =>
    intro stack entries last e s he hs
    have hkey : Goes ⟨.object entries last :: stack, e⟩ (k ++ (b ++ ':' :: (w ++ s)))
        ⟨.object entries key :: stack, .colon⟩ (b ++ ':' :: (w ++ s)) :=
      goes_token (.scalar rfl (.text hk)) (by rintro ⟨⟩)
        fun start => .inl (step_key he key start)
    have hcolon := goes_punctuation ':' rfl (w ++ s) fun start =>
      .inl (step_colon (.object entries key :: stack) start)
    have hvalue := ih (.object entries key :: stack) .value s (.inr rfl) hs
    simp only [List.append_assoc, List.cons_append]
    exact (goes_blanks ha _ _).trans
      (hkey.trans ((goes_blanks hb _ _).trans (hcolon.trans hvalue)))
  | firstMember _ ih =>
    exact fun stack entries last e s he hs => ⟨_, ih stack entries last e s he hs⟩
  | @nextMember es key v w w' _ _ ih ih' =>
    intro stack entries last e s he hs
    obtain ⟨key', hentries⟩ := ih stack entries last e (',' :: (w' ++ s)) he
      (ends_punctuation rfl _)
    have hcomma (done : List (Scalar × Value)) := goes_punctuation ',' rfl (w' ++ s) fun start =>
      .inl ((Frame.object done key').step_comma stack start)
    have hlast (done : List (Scalar × Value)) := ih' stack done key' .key s (.inr rfl) hs
    rw [List.append_assoc, List.cons_append, List.foldl_append]
    exact ⟨key, hentries.trans ((hcomma _).trans (hlast _))⟩

/-- What can be derived is read, or is nested too deeply. -/
theorem Derives.runText {v : Value} {s : List Char} (h : Derives IsShort (.element v) s) :
    State.runText ⟨[], .value⟩ (Text.ofChars s) = .ok v ∨
      State.runText ⟨[], .value⟩ (Text.ofChars s) = .error .tooDeep := by
  have hgoes := h.isTaken [] .value [] (.inr rfl) (fun c hc => nomatch hc)
  rwa [List.append_nil] at hgoes

end PropertyList.Json
