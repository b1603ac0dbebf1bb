/-
  PropertyList.Proofs.Json.Scanning

  The machine over a text.  `Scans` cuts a text into blanks and tokens, up to its end or to
  something that is no token.  Every text is cut like that, and a run takes it piece by piece.
-/
import PropertyList.Json.Reader
import PropertyList.Proofs.Json.Spelling

namespace PropertyList.Json

/-! ## The front of a token -/

theorem isBlank_of_isDigit {c : Char} (h : c.isDigit = true) : isBlank (.scalar c) = false := by
  simp only [isBlank, Bool.or_eq_false_iff, decide_eq_false_iff_not, CodePoint.scalar.injEq]
  refine ⟨⟨⟨?_, ?_⟩, ?_⟩, ?_⟩ <;> rintro rfl <;> cases h

/-- The characters that are tokens by themselves. -/
def loneTokens : List (Char × Token) := [
  ('[', .beginArray), (']', .endArray), ('\x7b', .beginObject), ('\x7d', .endObject), (':', .colon),
  (',', .comma)]

theorem mem_loneTokens {c : Char} {t : Token} (h : punctuation? (.scalar c) = some t) :
    (c, t) ∈ loneTokens := by
  unfold punctuation? at h
  split at h
  case h_7 => cases h
  all_goals
    next hc =>
      obtain rfl := Option.some.inj h
      rw [CodePoint.scalar.inj hc]
      decide

/-- What holds of all characters that are tokens by themselves. -/
theorem forall_loneTokens {P : Char × Token → Prop} [DecidablePred P] {c : Char} {t : Token}
    (h : punctuation? (.scalar c) = some t)
    (hall : loneTokens.all (fun p => decide (P p)) = true) : P (c, t) :=
  forall_of_all hall _ (mem_loneTokens h)

/-- None of them is a scalar. -/
theorem isSome_scalar?_of_punctuation? {c : Char} {t : Token}
    (h : punctuation? (.scalar c) = some t) : t.scalar?.isSome = false :=
  @forall_loneTokens (fun p => p.2.scalar?.isSome = false) _ c t h (by decide)

theorem SpellsToken.eq_singleton {c : Char} {t : Token} {w : List Char} (h : SpellsToken t w)
    (hc : punctuation? (.scalar c) = some t) : w = [c] := by
  have htext {d : Char} (hd : punctuation? (.scalar d) = some t) : t.toText = [.scalar d] :=
    @forall_loneTokens (fun p => p.2.toText = [.scalar p.1]) _ d t hd (by decide)
  cases h with
  | punctuation hd => rw [CodePoint.scalar.inj (List.cons.inj ((htext hd).symm.trans (htext hc))).1]
  | scalar ht _ =>
    have hnone := isSome_scalar?_of_punctuation? hc
    rw [ht] at hnone
    cases hnone

theorem SpellsToken.text {t : Text} {w : List Char} (h : SpellsToken (.text t) w) :
    SpellsText t w := by
  cases h with
  | punctuation h => cases isSome_scalar?_of_punctuation? h
  | scalar ht h =>
    obtain rfl := Option.some.inj ht
    cases h with
    | text h => exact h

/-- No token starts with a blank. -/
theorem SpellsToken.exists_cons {t : Token} {w : List Char} (h : SpellsToken t w) :
    ∃ c u, w = c :: u ∧ isBlank (.scalar c) = false := by
  -- a number starts with a sign or a digit
  have hsigned {negative : Bool} {c : Char} {u : List Char} (hc : c.isDigit = true) :
      ∃ d v, signed negative (c :: u) = d :: v ∧ isBlank (.scalar d) = false := by
    cases negative with
    | true => exact ⟨'-', c :: u, rfl, rfl⟩
    | false => exact ⟨c, u, rfl, isBlank_of_isDigit hc⟩
  cases h with
  | @punctuation c _ h =>
    exact ⟨c, [], rfl,
      @forall_loneTokens (fun p => isBlank (.scalar p.1) = false) _ c t h (by decide)⟩
  | scalar _ h =>
    cases h with
    | null => exact ⟨_, _, rfl, rfl⟩
    | true => exact ⟨_, _, rfl, rfl⟩
    | false => exact ⟨_, _, rfl, rfl⟩
    | int negative hds _ =>
      obtain ⟨c, u, rfl⟩ := List.exists_cons_of_ne_nil hds.ne_nil
      exact hsigned (hds.digits c List.mem_cons_self)
    | real negative hs _ =>
      obtain ⟨c, u, rfl, hc⟩ := hs.exists_cons
      exact hsigned hc
    | text h =>
      cases h with
      | quoted _ => exact ⟨'"', _, rfl, rfl⟩

theorem SpellsToken.length_pos {t : Token} {w : List Char} (h : SpellsToken t w) :
    0 < w.length := by
  obtain ⟨c, u, rfl, -⟩ := h.exists_cons
  exact Nat.succ_pos _

/-! ## Cutting a text -/

/-- A text cut into blanks and tokens, up to its end or to something that is no token. -/
inductive Scans : List Char → Prop where
  | finish {a : List Char} (ha : IsBlanks a) : Scans a
  | stuck {a s : List Char} {c : Char} (ha : IsBlanks a) (hc : isBlank (.scalar c) = false)
      (h : ∀ t, (takeLexeme (Text.ofChars (c :: s))).1 ≠ .token t) : Scans (a ++ c :: s)
  | token {a w s : List Char} {t : Token} (ha : IsBlanks a) (hw : SpellsToken t w)
      (h : takeLexeme (Text.ofChars (w ++ s)) = (.token t, Text.ofChars s)) (hs : Scans s) :
      Scans (a ++ (w ++ s))

/-- Blanks at the front of a text, and what is behind them. -/
theorem exists_blanks (s : List Char) : ∃ a r, s = a ++ r ∧ IsBlanks a ∧
    ∀ c ∈ r.head?, isBlank (.scalar c) = false := by
  refine ⟨s.takeWhile fun c => isBlank (.scalar c), s.dropWhile fun c => isBlank (.scalar c),
    List.takeWhile_append_dropWhile.symm, fun c hc => ?_, fun c hc => ?_⟩
  · exact @List.mem_takeWhile_imp _ (fun c => isBlank (.scalar c)) s c hc
  · have hnot := List.head?_dropWhile_not (fun c => isBlank (.scalar c)) s
    rw [hc] at hnot
    exact hnot

theorem scans (s : List Char) : Scans s := by
  -- what is behind a token is shorter than the text
  induction hn : s.length using Nat.strongRecOn generalizing s with
  | ind n ih =>
    obtain ⟨a, r, rfl, ha, hr⟩ := exists_blanks s
    cases r with
    | nil =>
      rw [List.append_nil]
      exact .finish ha
    | cons c r =>
      by_cases h : ∃ t, (takeLexeme (Text.ofChars (c :: r))).1 = .token t
      · obtain ⟨t, ht⟩ := h
        have htake : takeLexeme (Text.ofChars (c :: r)) =
            (.token t, (takeLexeme (Text.ofChars (c :: r))).2) := Prod.ext ht rfl
        obtain ⟨w, u, hwu, hrest, hw⟩ := exists_of_takeLexeme htake
        rw [hrest, hwu] at htake
        rw [hwu]
        refine .token ha hw htake (ih u.length ?_ u rfl)
        have hpos := hw.length_pos
        rw [hwu, List.length_append, List.length_append] at hn
        omega
      · exact .stuck ha (hr c rfl) fun t ht => h ⟨t, ht⟩

/-! ## Runs over a text -/

/-- Takes the lexemes of a text to their end. -/
def State.runText (st : State) (s : Text) : Except Halt Value :=
  st.run (lexemes (s.length + 1) [] s)

/-- Lexemes that have been taken stand in front of the others. -/
theorem lexemes_eq (fuel : Nat) (taken : List Located) (s : Text) :
    lexemes fuel taken s = taken.reverse ++ lexemes fuel [] s := by
  induction fuel generalizing taken s with
  | zero => rw [lexemes, lexemes, List.reverse_nil, List.append_nil]
  | succ fuel ih =>
    rw [lexemes, lexemes]
    split
    · rw [List.reverse_nil, List.append_nil]
    · dsimp only
      split
      · rw [List.reverse_cons, List.reverse_cons, List.reverse_nil, List.nil_append]
      · rw [List.reverse_cons, List.reverse_cons, List.reverse_nil, List.nil_append]
      · rw [ih, ih [_], List.reverse_cons, List.append_assoc]
        rfl

theorem isToken_of_takeValue {stack : List Frame} {l : Located} {st : State}
    (h : takeValue stack l = .ok st) : ∃ t, l.lexeme = .token t := by
  unfold takeValue at h
  split at h
  case h_9 | h_10 | h_11 | h_12 => cases h
  all_goals exact ⟨_, ‹_›⟩

theorem isToken_of_takeKey {stack : List Frame} {l : Located} {st : State}
    (h : takeKey stack l = .ok st) : ∃ t, l.lexeme = .token t := by
  unfold takeKey at h
  split at h
  · next ht => exact ⟨_, ht⟩
  · cases h
  · cases h

/-- A step is made with a token, or not at all. -/
theorem isToken_of_step {st st' : State} {l : Located} (h : st.step l = .ok st') :
    ∃ t, l.lexeme = .token t := by
  unfold State.step at h
  split at h
  · cases h
  · exact isToken_of_takeValue h
  · split at h
    · next ht _ => exact ⟨_, ht⟩
    · exact isToken_of_takeValue h
  · exact isToken_of_takeKey h
  · split at h
    · next ht _ => exact ⟨_, ht⟩
    · exact isToken_of_takeKey h
  · split at h
    · next ht => exact ⟨_, ht⟩
    · cases h
  · split at h
    case h_5 => cases h
    all_goals exact ⟨_, ‹_›⟩

/-- Something that is no token stops the machine in every state. -/
theorem exists_error_of_step (st : State) {l : Lexeme} (start : Text) (h : ∀ t, l ≠ .token t) :
    ∃ e, st.step ⟨l, start⟩ = .error e := by
  cases hstep : st.step ⟨l, start⟩ with
  | error e => exact ⟨e, rfl⟩
  | ok st' =>
    obtain ⟨t, ht⟩ := isToken_of_step hstep
    exact absurd ht (h t)

section Runs

variable {st : State} {fuel : Nat} {a : List Char}

theorem lexemes_blanks (ha : IsBlanks a) (s : Text) :
    lexemes (fuel + 1) [] (Text.ofChars a ++ s) = lexemes (fuel + 1) [] s := by
  have hblank : ∀ c ∈ Text.ofChars a, isBlank c = true := by
    intro c hc
    obtain ⟨d, hd, rfl⟩ := List.mem_map.mp hc
    exact ha d hd
  rw [lexemes, lexemes, List.dropWhile_append_of_pos hblank]

/-- A run takes one lexeme and goes on behind it. -/
theorem run_lexemes {c : CodePoint} {s : Text} (hc : isBlank c = false) :
    st.run (lexemes (fuel + 1) [] (c :: s)) =
      (st.step ⟨(takeLexeme (c :: s)).1, c :: s⟩).bind fun st' =>
        st'.run (lexemes fuel [] (takeLexeme (c :: s)).2) := by
  have hrun (l : Located) (ls : List Located) :
      st.run (l :: ls) = (st.step l).bind fun st' => st'.run ls := by
    rw [State.run]
    cases st.step l <;> rfl
  have hdrop : (c :: s).dropWhile isBlank = c :: s := by
    rw [List.dropWhile_cons, hc]
    rfl
  rw [lexemes, hdrop]
  dsimp only
  generalize takeLexeme (c :: s) = taken
  obtain ⟨l, rest⟩ := taken
  -- where the lexemes end, no step is made
  have hends {ls : List Located} (hl : ∀ t, l ≠ .token t) :
      st.run [⟨l, c :: s⟩] = (st.step ⟨l, c :: s⟩).bind fun st' => st'.run ls := by
    obtain ⟨e, he⟩ := exists_error_of_step st (c :: s) hl
    rw [hrun, he]
    rfl
  split
  · next hl =>
    apply hends
    intro t ht
    cases hl.symm.trans ht
  · next hl =>
    apply hends
    intro t ht
    cases hl.symm.trans ht
  · rw [lexemes_eq, List.reverse_singleton, List.singleton_append, hrun]

theorem run_finish (ha : IsBlanks a) :
    st.run (lexemes (fuel + 1) [] (Text.ofChars a)) = st.finish := by
  rw [← List.append_nil (Text.ofChars a), lexemes_blanks ha]
  rfl

theorem run_token {w : List Char} {t : Token} {s : Text} (hw : SpellsToken t w)
    (h : takeLexeme (Text.ofChars w ++ s) = (.token t, s)) :
    st.run (lexemes (fuel + 1) [] (Text.ofChars w ++ s)) =
      (st.step ⟨.token t, Text.ofChars w ++ s⟩).bind fun st' => st'.run (lexemes fuel [] s) := by
  obtain ⟨c, u, rfl, hc⟩ := hw.exists_cons
  rw [Text.ofChars_cons, List.cons_append] at h ⊢
  rw [run_lexemes hc, h]

theorem run_stuck {c : CodePoint} {s : Text} (hc : isBlank c = false)
    (h : ∀ t, (takeLexeme (c :: s)).1 ≠ .token t) :
    ∃ e, st.step ⟨(takeLexeme (c :: s)).1, c :: s⟩ = .error e ∧
      st.run (lexemes (fuel + 1) [] (c :: s)) = .error e := by
  obtain ⟨e, he⟩ := exists_error_of_step st (c :: s) h
  refine ⟨e, he, ?_⟩
  rw [run_lexemes hc, he]
  rfl

/-- A run needs no more fuel than the length of the text. -/
theorem Scans.run_eq {s : List Char} (h : Scans s) (st : State) (hfuel : s.length < fuel) :
    st.run (lexemes fuel [] (Text.ofChars s)) = st.runText (Text.ofChars s) := by
  rw [State.runText, Text.length_ofChars]
  -- both amounts of fuel are enough, and so it does not matter which one is used
  generalize hfuel' : s.length + 1 = fuel'
  replace hfuel' : s.length < fuel' := by omega
  obtain ⟨n, rfl⟩ : ∃ n, fuel = n + 1 := ⟨fuel - 1, by omega⟩
  obtain ⟨m, rfl⟩ : ∃ m, fuel' = m + 1 := ⟨fuel' - 1, by omega⟩
  induction h generalizing st n m with
  | finish ha => rw [run_finish ha, run_finish ha]
  | @stuck a s c ha hc h =>
    obtain ⟨e, he⟩ := exists_error_of_step st (Text.ofChars (c :: s)) h
    rw [Text.ofChars_append, lexemes_blanks ha, lexemes_blanks ha, Text.ofChars_cons,
      run_lexemes hc, run_lexemes hc, ← Text.ofChars_cons, he]
    rfl
  | @token a w s t ha hw h _ ih =>
    have hpos := hw.length_pos
    rw [List.length_append, List.length_append] at hfuel hfuel'
    rw [Text.ofChars_append] at h
    rw [Text.ofChars_append, Text.ofChars_append, lexemes_blanks ha, lexemes_blanks ha,
      run_token hw h, run_token hw h]
    obtain ⟨n, rfl⟩ : ∃ k, n = k + 1 := ⟨n - 1, by omega⟩
    obtain ⟨m, rfl⟩ : ∃ k, m = k + 1 := ⟨m - 1, by omega⟩
    refine congrArg _ (funext fun st' => ?_)
    exact ih st' n (by omega) m (by omega)

end Runs

/-! ## Pieces of a text -/

section Pieces

variable {a w s : List Char} {t : Token}

theorem State.runText_finish (st : State) (ha : IsBlanks a) :
    st.runText (Text.ofChars a) = st.finish := run_finish ha

theorem State.runText_blanks (st : State) (ha : IsBlanks a) (s : List Char) :
    st.runText (Text.ofChars (a ++ s)) = st.runText (Text.ofChars s) := by
  have hfuel : s.length < (a ++ s).length + 1 := by
    rw [List.length_append]
    omega
  rw [← (scans s).run_eq st hfuel, State.runText, Text.length_ofChars, Text.ofChars_append,
    lexemes_blanks ha]

theorem State.runText_token (st : State) (hw : SpellsToken t w)
    (h : takeLexeme (Text.ofChars (w ++ s)) = (.token t, Text.ofChars s)) :
    st.runText (Text.ofChars (w ++ s)) =
      (st.step ⟨.token t, Text.ofChars (w ++ s)⟩).bind fun st' =>
        st'.runText (Text.ofChars s) := by
  have hpos := hw.length_pos
  have hfuel : s.length < (w ++ s).length := by
    rw [List.length_append]
    omega
  rw [Text.ofChars_append] at h
  rw [State.runText, Text.length_ofChars, Text.ofChars_append, run_token hw h]
  exact congrArg _ (funext fun st' => (scans s).run_eq st' hfuel)

end Pieces

end PropertyList.Json
