/-
  PropertyList.Proofs.Json.Lexeme

  From the text of tokens back to the tokens.  The two layouts differ only in
  the blanks between tokens (`Spaced`), and blanks are skipped; what is left to
  show is that each token ends where the next one starts.
-/
import PropertyList.Json.Lexeme
import PropertyList.Proofs.Json.Number
import PropertyList.Proofs.Text.Coding
import Mathlib.Data.List.Chain

namespace PropertyList.Json

/-! ## Quoted text -/

theorem hexDigits_four {n : Nat} (h : n < 32) :
    hexDigits 4 n = ['0', '0', Nat.digitChar (n / 16), Nat.digitChar (n % 16)] := by
  have hall : ∀ m < 32, hexDigits 4 m =
      ['0', '0', Nat.digitChar (m / 16), Nat.digitChar (m % 16)] := by decide
  exact hall n h

theorem hexDigit?_digitChar {d : Nat} (h : d < 16) :
    (CodePoint.scalar (Nat.digitChar d)).hexDigit? = some d := by
  have hall : ∀ e < 16, (CodePoint.scalar (Nat.digitChar e)).hexDigit? = some e := by decide
  exact hall d h

/-- Four digits in front of something are the number they were written for. -/
theorem takeHex?_hexDigits {n : Nat} (h : n < 32) (d : CodePoint) (s : Text) :
    takeHex? (Text.ofChars (hexDigits 4 n) ++ d :: s) = some (n, d :: s) := by
  have hhigh : n / 16 < 16 := by omega
  have hlow : n % 16 < 16 := by omega
  have hzero : (CodePoint.scalar '0').hexDigit? = some 0 := by decide
  have hsum : ((0 * 16 + 0) * 16 + n / 16) * 16 + n % 16 = n := by omega
  rw [hexDigits_four h]
  simp only [Text.ofChars_cons, Text.ofChars_nil, List.cons_append, List.nil_append, takeHex?,
    hzero, hexDigit?_digitChar hhigh, hexDigit?_digitChar hlow, Option.bind_eq_bind,
    Option.bind_some, hsum]

/-- An escape of four digits stands for the code point with that number. -/
theorem takeUnicodeEscape_hexDigits {c : CodePoint} (h : c.toNat < 32) (d : CodePoint) (s : Text) :
    takeUnicodeEscape (.scalar 'u' :: (Text.ofChars (hexDigits 4 c.toNat) ++ d :: s)) =
      .ok (c, d :: s) := by
  have hhigh : Utf16.isHigh c.toNat = false := by
    rw [Utf16.isHigh, Bool.and_eq_false_iff]
    exact .inl (decide_eq_false (by omega))
  have hcode : codePoint c.toNat = c := by
    rw [codePoint, CodePoint.ofNat?_toNat]
    rfl
  rw [takeUnicodeEscape, List.tail_cons, takeHex?_hexDigits h]
  simp only [hhigh, hcode]

/-- Which code points are escaped, and how. -/
theorem escaped_eq (c : CodePoint) : escaped c =
    if c = .scalar '"' then [.scalar '\\', .scalar '"']
    else if c = .scalar '\\' then [.scalar '\\', .scalar '\\']
    else if c.toNat = 0x0A then [.scalar '\\', .scalar 'n']
    else if c.toNat = 0x0D then [.scalar '\\', .scalar 'r']
    else if c.toNat = 0x09 then [.scalar '\\', .scalar 't']
    else if c.toNat = 0x0C then [.scalar '\\', .scalar 'f']
    else if c.toNat = 0x08 then [.scalar '\\', .scalar 'b']
    else if c.toNat < 0x20 then Text.ofChars ('\\' :: 'u' :: hexDigits 4 c.toNat)
    else [c] := rfl

/-- What is written for a code point is read as it, if something follows. -/
theorem takeCodePoint_escaped (c d : CodePoint) (s : Text) :
    takeCodePoint (escaped c ++ d :: s) = .ok (c, d :: s) := by
  have hnat {c' : CodePoint} (h : c.toNat = c'.toNat) : c = c' := CodePoint.toNat_inj h
  rw [escaped_eq]
  split_ifs with hquote hslash hfeed hreturn htab hform hback hcontrol
  · rw [hquote]; rfl
  · rw [hslash]; rfl
  · rw [@hnat (.scalar '\n') hfeed]; rfl
  · rw [@hnat (.scalar '\r') hreturn]; rfl
  · rw [@hnat (.scalar '\t') htab]; rfl
  · rw [@hnat (.scalar '\x0C') hform]; rfl
  · rw [@hnat (.scalar '\x08') hback]; rfl
  · exact takeUnicodeEscape_hexDigits hcontrol d s
  · rw [List.singleton_append, takeCodePoint, if_neg hslash, if_neg hcontrol]

/-- No code point is written so that it looks like the closing quote. -/
theorem exists_escaped_eq_cons (c : CodePoint) : ∃ d s, escaped c = d :: s ∧ d ≠ .scalar '"' := by
  have hslash : CodePoint.scalar '\\' ≠ .scalar '"' := by decide
  rw [escaped_eq]
  split_ifs with hquote
  all_goals first
    | exact ⟨_, _, rfl, hslash⟩
    | exact ⟨_, _, rfl, hquote⟩

/-- Quoted text is read up to its closing quote. -/
theorem takeQuoted_escaped {t : Text} {fuel : Nat} (taken rest : Text) (hfuel : t.length < fuel) :
    takeQuoted fuel taken (t.flatMap escaped ++ .scalar '"' :: rest) =
      .ok (taken.reverse ++ t, rest) := by
  induction t generalizing fuel taken with
  | nil =>
    obtain ⟨n, rfl⟩ : ∃ n, fuel = n + 1 := ⟨fuel - 1, by rw [List.length_nil] at hfuel; omega⟩
    rw [List.flatMap_nil, List.nil_append, takeQuoted, List.append_nil]
  -- each step takes one code point off the text, and needs something behind it
  | cons c t ih =>
    rw [List.length_cons] at hfuel
    obtain ⟨n, rfl⟩ : ∃ n, fuel = n + 1 := ⟨fuel - 1, by omega⟩
    -- the closing quote at the latest follows the code point
    obtain ⟨d, s, hds⟩ : ∃ d s, t.flatMap escaped ++ .scalar '"' :: rest = d :: s :=
      List.exists_cons_of_ne_nil (List.append_ne_nil_of_right_ne_nil _ (List.cons_ne_nil _ _))
    have hstep : takeQuoted (n + 1) taken (escaped c ++ d :: s) =
        takeQuoted n (c :: taken) (d :: s) := by
      obtain ⟨e, u, heu, hne⟩ := exists_escaped_eq_cons c
      rw [takeQuoted, takeCodePoint_escaped]
      intro v hv
      rw [heu] at hv
      exact hne (List.cons.inj hv).1
    rw [List.flatMap_cons, List.append_assoc, hds, hstep, ← hds, ih (c :: taken) (by omega),
      List.reverse_cons, List.append_assoc]
    rfl

/-! ## Tokens -/

namespace Token

/-- A number, which ends only where something else starts. -/
def isNumber : Token → Bool
  | int _ => true
  | real _ => true
  | _ => false

/-- A token that is read as it was written: an integer within the limit of digits, a finite real,
    or no number. -/
def IsExact : Token → Prop
  | int n => Integer.isPrintable n = true
  | real x => x.isFinite = true
  | _ => True

/-- Behind a token that is no number, a number does not go on. -/
theorem ends_toText {t : Token} (ht : t.isNumber = false) (rest : Text) :
    Ends (t.toText ++ rest) := by
  cases t with
  | int n => cases ht
  | real x => cases ht
  | bool b => cases b <;> exact ends_cons (by decide) _
  | _ => exact ends_cons (by decide) _

end Token

namespace StartsNumber

variable {s : List Char}

/-- The first character of a number: a minus sign or a digit. -/
theorem exists_cons (h : StartsNumber s) : ∃ c t, s = c :: t ∧ (c = '-' ∨ c.isDigit = true) := by
  obtain ⟨c, t, hc, rfl | rfl⟩ := h
  · exact ⟨c, t, rfl, .inr hc⟩
  · exact ⟨'-', c :: t, rfl, .inl rfl⟩

/-- A number starts with an ASCII character that is no blank. -/
theorem exists_ofChars_eq_cons (h : StartsNumber s) :
    ∃ c t, Text.ofChars s = c :: t ∧ isBlank c = false ∧ c.toNat < 0x80 := by
  obtain ⟨c, t, rfl, hc⟩ := h.exists_cons
  have hblank : isBlank (.scalar c) = false := by
    refine Bool.eq_false_iff.mpr fun hblank => ?_
    simp only [isBlank, Bool.or_eq_true, decide_eq_true_eq] at hblank
    rcases hblank with ((e | e) | e) | e
    all_goals
      rw [CodePoint.scalar.inj e] at hc
      exact absurd hc (by decide)
  refine ⟨.scalar c, Text.ofChars t, rfl, hblank, ?_⟩
  show c.toNat < 0x80
  rcases hc with rfl | hc
  · decide
  · have := isDigit_iff.mp hc
    omega

theorem punctuation?_eq_none {c : Char} (hc : c = '-' ∨ c.isDigit = true) :
    punctuation? (.scalar c) = none := by
  unfold punctuation?
  split
  case h_7 => rfl
  all_goals
    next e =>
      rw [CodePoint.scalar.inj e] at hc
      exact absurd hc (by decide)

theorem dropWord?_eq_none {word : String} {s : Text}
    (h : ∀ rest, Text.ofString word ++ rest ≠ s) : dropWord? word s = none := by
  refine if_neg fun hprefix => ?_
  obtain ⟨rest, hrest⟩ := List.isPrefixOf_iff_prefix.mp hprefix
  exact h rest hrest

/-- No word is at the front of a number. -/
theorem dropWord?_words (h : StartsNumber s) (rest : Text) {p : String × Lexeme} (hp : p ∈ words) :
    dropWord? p.1 (Text.ofChars s ++ rest) = none := by
  -- a word that starts with a letter
  have hletter {word : String} {d : Char} {ds : List Char} (hword : word.toList = d :: ds)
      (hd : ¬(d = '-' ∨ d.isDigit = true)) (u : Text) :
      Text.ofString word ++ u ≠ Text.ofChars s ++ rest := by
    obtain ⟨c, t, rfl, hc⟩ := h.exists_cons
    rw [Text.ofString, hword]
    intro e
    rw [CodePoint.scalar.inj (List.cons.inj e).1] at hd
    exact hd hc
  apply dropWord?_eq_none
  simp only [words, List.mem_cons, List.not_mem_nil, or_false] at hp
  rcases hp with rfl | rfl | rfl | rfl | rfl | rfl
  · exact hletter rfl (by decide)
  · exact hletter rfl (by decide)
  · exact hletter rfl (by decide)
  · exact hletter rfl (by decide)
  · exact hletter rfl (by decide)
  · -- behind the minus sign there are digits
    intro u e
    obtain ⟨c, t, hc, rfl | rfl⟩ := h
    · rw [← CodePoint.scalar.inj (List.cons.inj e).1] at hc
      exact absurd hc (by decide)
    · rw [← CodePoint.scalar.inj (List.cons.inj (List.cons.inj e).2).1] at hc
      exact absurd hc (by decide)

/-- A number is taken as a number, as it starts like nothing else. -/
theorem takeLexeme (h : StartsNumber s) {rest : Text} {taken : Lexeme × Text}
    (hnumber : takeNumber? (Text.ofChars s ++ rest) = some taken) :
    takeLexeme (Text.ofChars s ++ rest) = taken := by
  have hwords := fun p (hp : p ∈ words) => h.dropWord?_words rest hp
  obtain ⟨c, t, rfl, hc⟩ := h.exists_cons
  have hquote : CodePoint.scalar c ≠ .scalar '"' := by
    intro e
    rw [CodePoint.scalar.inj e] at hc
    exact absurd hc (by decide)
  rw [Text.ofChars_cons, List.cons_append] at hnumber hwords ⊢
  rw [Json.takeLexeme, punctuation?_eq_none hc]
  show (if _ then _ else _) = _
  rw [if_neg hquote, List.findSome?_eq_none_iff.mpr, hnumber]
  · rfl
  · rintro ⟨word, l⟩ hp
    exact congrArg (Option.map fun rest => (l, rest)) (hwords (word, l) hp)

end StartsNumber

namespace Token

/-- A token starts with an ASCII character that is no blank. -/
theorem exists_toText_eq_cons {t : Token} (ht : t.IsExact) :
    ∃ c s, t.toText = c :: s ∧ isBlank c = false ∧ c.toNat < 0x80 := by
  cases t with
  | int n => exact (startsNumber_decimal n).exists_ofChars_eq_cons
  | real x => exact (startsNumber_text ht).exists_ofChars_eq_cons
  | bool b => cases b <;> exact ⟨_, _, rfl, by decide, by decide⟩
  | _ => exact ⟨_, _, rfl, by decide, by decide⟩

theorem takeLexeme_quoted (t rest : Text) :
    takeLexeme (quoted t ++ rest) = (.token (.text t), rest) := by
  have hlen : t.length ≤ (t.flatMap escaped).length := by
    refine length_le_length_flatMap fun c _ => ?_
    obtain ⟨d, s, hds, -⟩ := exists_escaped_eq_cons c
    rw [hds]
    exact List.cons_ne_nil _ _
  have hcons : quoted t ++ rest = .scalar '"' :: (t.flatMap escaped ++ .scalar '"' :: rest) := by
    rw [quoted, List.cons_append, List.append_assoc]
    rfl
  have hquote : punctuation? (.scalar '"') = none := rfl
  rw [hcons, takeLexeme, hquote]
  show (if _ then _ else _) = _
  rw [if_pos rfl, takeQuoted_escaped [] rest]
  · rfl
  · simp only [List.length_append, List.length_cons]
    omega

/-- A token is read as it was written. -/
theorem takeLexeme_toText {t : Token} (ht : t.IsExact) {rest : Text}
    (hrest : t.isNumber = true → Ends rest) : takeLexeme (t.toText ++ rest) = (.token t, rest) := by
  cases t with
  | int n => exact (startsNumber_decimal n).takeLexeme (takeNumber?_decimal ht (hrest rfl))
  | real x => exact (startsNumber_text ht).takeLexeme (takeNumber?_real ht (hrest rfl))
  | text t => exact takeLexeme_quoted t rest
  | bool b => cases b <;> rfl
  | _ => rfl

end Token

/-! ## Layouts -/

/-- A text of tokens, with blanks anywhere between them. -/
inductive Spaced : List Token → Text → Prop where
  | nil : Spaced [] []
  | blank {ts : List Token} {c : CodePoint} {s : Text} (hc : isBlank c = true) (h : Spaced ts s) :
      Spaced ts (c :: s)
  | token {ts : List Token} {s : Text} (t : Token) (h : Spaced ts s) :
      Spaced (t :: ts) (t.toText ++ s)

theorem Spaced.blanks {ts : List Token} {w s : Text} (hw : ∀ c ∈ w, isBlank c = true)
    (h : Spaced ts s) : Spaced ts (w ++ s) := by
  induction w with
  | nil => exact h
  | cons c w ih =>
    exact .blank (hw c List.mem_cons_self) (ih fun d hd => hw d (List.mem_cons_of_mem _ hd))

theorem isBlank_newline (level : Nat) : ∀ c ∈ newline level, isBlank c = true := by
  intro c hc
  rcases List.mem_cons.mp hc with rfl | hc
  · decide
  · rw [(List.mem_replicate.mp hc).2]
    decide

theorem spaced_compact (ts : List Token) : Spaced ts (compact ts) := by
  induction ts with
  | nil => exact .nil
  | cons t ts ih => exact .token t ih

theorem spaced_prettyFrom (level : Nat) (ts : List Token) :
    Spaced ts ((prettyFrom level ts).flatten ++ [.scalar '\n']) := by
  -- the cases are those of the layout: an empty container, a bracket or comma, all other tokens
  induction level, ts using prettyFrom.induct with
  | case1 level => exact .blank (by decide) .nil
  | case2 level rest ih => exact .token .beginArray (.token .endArray ih)
  | case3 level rest ih => exact .token .beginObject (.token .endObject ih)
  | case4 level rest _ _ ih =>
    rw [prettyFrom, List.flatten_cons, List.append_assoc, List.append_assoc]
    · exact .token .beginArray (.blanks (isBlank_newline _) ih)
    all_goals assumption
  | case5 level rest _ _ ih =>
    rw [prettyFrom, List.flatten_cons, List.append_assoc, List.append_assoc]
    · exact .token .beginObject (.blanks (isBlank_newline _) ih)
    all_goals assumption
  | case6 level rest _ _ ih =>
    rw [prettyFrom, List.flatten_cons, List.append_assoc, List.append_assoc]
    exact .blanks (isBlank_newline _) (.token .endArray ih)
  | case7 level rest _ _ ih =>
    rw [prettyFrom, List.flatten_cons, List.append_assoc, List.append_assoc]
    exact .blanks (isBlank_newline _) (.token .endObject ih)
  | case8 level rest _ _ ih =>
    rw [prettyFrom, List.flatten_cons, List.append_assoc, List.append_assoc]
    exact .token .comma (.blanks (isBlank_newline _) ih)
  | case9 level rest _ _ ih => exact .token .colon (.blank (by decide) ih)
  | case10 level t rest _ _ _ _ _ _ _ _ ih =>
    rw [prettyFrom, List.flatten_cons, List.append_assoc]
    · exact .token t ih
    all_goals assumption

/-- Both layouts are tokens with blanks between them. -/
theorem spaced_render (layout : Layout) (ts : List Token) : Spaced ts (layout.render ts) := by
  cases layout with
  | compact => exact spaced_compact ts
  | pretty => exact spaced_prettyFrom 0 ts

/-! ## Characters -/

/-- A code point that a document is written with: a character other than the one numbered zero. -/
def IsWritten (c : CodePoint) : Prop := ∃ d : Char, c = .scalar d ∧ 0 < d.toNat

theorem isWritten_ofChars {cs : List Char} (h : ∀ c ∈ cs, 0 < c.toNat) :
    ∀ c ∈ Text.ofChars cs, IsWritten c := by
  intro c hc
  obtain ⟨d, hd, rfl⟩ := List.mem_map.mp hc
  exact ⟨d, rfl, h d hd⟩

theorem isWritten_char {d : Char} (h : 0 < d.toNat) :
    ∀ c ∈ [CodePoint.scalar d], IsWritten c :=
  fun _ hc => ⟨d, List.mem_singleton.mp hc, h⟩

theorem isWritten_pair {a b : Char} (h : 0 < a.toNat ∧ 0 < b.toNat) :
    ∀ c ∈ [CodePoint.scalar a, .scalar b], IsWritten c := by
  refine @isWritten_ofChars [a, b] ?_
  rintro c (_ | ⟨_, _ | ⟨_, hc⟩⟩)
  · exact h.1
  · exact h.2
  · cases hc

theorem isWritten_escaped (d : Char) : ∀ c ∈ escaped (.scalar d), IsWritten c := by
  rw [escaped_eq]
  split_ifs with hquote hslash hfeed hreturn htab hform hback hcontrol
  · exact isWritten_pair (by decide)
  · exact isWritten_pair (by decide)
  · exact isWritten_pair (by decide)
  · exact isWritten_pair (by decide)
  · exact isWritten_pair (by decide)
  · exact isWritten_pair (by decide)
  · exact isWritten_pair (by decide)
  · apply isWritten_ofChars
    have hall : ∀ n < 32, ('\\' :: 'u' :: hexDigits 4 n).all
        (fun c => decide (0 < c.toNat)) = true := by decide
    exact forall_of_all (hall _ hcontrol)
  · have hnat : (CodePoint.scalar d).toNat = d.toNat := rfl
    exact isWritten_char (by omega)

theorem isWritten_quoted (cs : List Char) : ∀ c ∈ quoted (Text.ofChars cs), IsWritten c := by
  have hquote : ∀ c ∈ [CodePoint.scalar '"'], IsWritten c := isWritten_char (by decide)
  intro c hc
  rcases List.mem_cons.mp hc with rfl | hc
  · exact hquote _ List.mem_cons_self
  · rcases List.mem_append.mp hc with hc | hc
    · obtain ⟨d, hd, hc⟩ := List.mem_flatMap.mp hc
      obtain ⟨d, -, rfl⟩ := List.mem_map.mp hd
      exact isWritten_escaped d c hc
    · exact hquote c hc

theorem isWritten_decimal (n : Int) : ∀ c ∈ Text.ofChars (Integer.decimal n), IsWritten c := by
  apply isWritten_ofChars
  intro c hc
  rcases Integer.mem_decimal hc with rfl | hc
  · decide
  · have := isDigit_iff.mp hc
    omega

theorem isWritten_real (x : Binary64) : ∀ c ∈ Text.ofChars x.text, IsWritten c := by
  apply isWritten_ofChars
  intro c hc
  have hbounds := (Binary64.isRealChar_of_mem_text hc).bounds
  omega

theorem toNat_lt_of_isBlank {c : CodePoint} (hc : isBlank c = true) : c.toNat < 0x80 := by
  simp only [isBlank, Bool.or_eq_true, decide_eq_true_eq] at hc
  rcases hc with ((rfl | rfl) | rfl) | rfl <;> decide

/-- A document starts with an ASCII character. -/
theorem Spaced.head_lt {ts : List Token} {s : Text} (h : Spaced ts s)
    (hts : ∀ t ∈ ts, t.IsExact) : ∀ c ∈ s.head?, c.toNat < 0x80 := by
  intro c hc
  cases h with
  | nil => cases hc
  | blank hblank _ =>
    rw [← Option.some.inj hc]
    exact toNat_lt_of_isBlank hblank
  | @token ts s t _ =>
    obtain ⟨d, u, hdu, -, hd⟩ := Token.exists_toText_eq_cons (hts t List.mem_cons_self)
    rw [hdu] at hc
    rw [← Option.some.inj hc]
    exact hd

/-- A layout adds nothing but blanks. -/
theorem Spaced.isWritten {ts : List Token} {s : Text} (h : Spaced ts s)
    (hts : ∀ t ∈ ts, ∀ c ∈ t.toText, IsWritten c) : ∀ c ∈ s, IsWritten c := by
  induction h with
  | nil => exact List.forall_mem_nil _
  | @blank ts c s hc _ ih =>
    refine List.forall_mem_cons.mpr ⟨?_, ih hts⟩
    simp only [isBlank, Bool.or_eq_true, decide_eq_true_eq] at hc
    rcases hc with ((rfl | rfl) | rfl) | rfl <;> exact ⟨_, rfl, by decide⟩
  | @token ts s t _ ih =>
    intro c hc
    rcases List.mem_append.mp hc with hc | hc
    · exact hts t List.mem_cons_self c hc
    · exact ih (fun u hu => hts u (.tail _ hu)) c hc

/-! ## Lexemes -/

/-- Two tokens that may stand side by side without a blank. -/
def Token.Apart (a b : Token) : Prop := a.isNumber = true → b.isNumber = false

theorem lexemes_blank {c : CodePoint} (hc : isBlank c = true) (fuel : Nat) (taken : List Located)
    (s : Text) : lexemes (fuel + 1) taken (c :: s) = lexemes (fuel + 1) taken s := by
  rw [lexemes, lexemes, List.dropWhile_cons, if_pos hc]

theorem lexemes_token {t : Token} (ht : t.IsExact) {s : Text} (hs : t.isNumber = true → Ends s)
    (fuel : Nat) (taken : List Located) : lexemes (fuel + 1) taken (t.toText ++ s) =
      lexemes fuel (⟨.token t, t.toText ++ s⟩ :: taken) s := by
  have htake := Token.takeLexeme_toText ht hs
  obtain ⟨c, u, hcu, hc, -⟩ := Token.exists_toText_eq_cons ht
  rw [hcu, List.cons_append] at htake ⊢
  rw [lexemes, List.dropWhile_cons, hc]
  simp only [Bool.false_eq_true, if_false, htake]

theorem ends_blank {c : CodePoint} (hc : isBlank c = true) (s : Text) : Ends (c :: s) := by
  refine ends_cons ?_ s
  simp only [isBlank, Bool.or_eq_true, decide_eq_true_eq] at hc
  rcases hc with ((rfl | rfl) | rfl) | rfl <;> decide

/-- Behind a number there is something with which it does not go on. -/
theorem Spaced.ends {ts : List Token} {s : Text} (h : Spaced ts s)
    (hts : ∀ t ∈ ts.head?, t.isNumber = false) : Ends s := by
  cases h with
  | nil =>
    intro c hc
    cases hc
  | blank hc _ => exact ends_blank hc _
  | @token _ s t _ => exact Token.ends_toText (hts t rfl) s

/-- Tokens are read as they were written, if no two numbers stand side by side. -/
theorem exists_lexemes {ts : List Token} {s : Text} (h : Spaced ts s)
    (hts : ∀ t ∈ ts, t.IsExact) (hapart : ts.IsChain Token.Apart) (taken : List Located) (fuel : Nat) (hfuel : ts.length < fuel) :
    ∃ ls, lexemes fuel taken s = taken.reverse ++ ls ∧ ls.map Located.lexeme = ts.map .token := by
  induction h generalizing taken fuel with
  | nil =>
    obtain ⟨n, rfl⟩ : ∃ n, fuel = n + 1 := ⟨fuel - 1, by omega⟩
    exact ⟨[], (List.append_nil _).symm, rfl⟩
  | blank hc _ ih =>
    obtain ⟨n, rfl⟩ : ∃ n, fuel = n + 1 := ⟨fuel - 1, by omega⟩
    rw [lexemes_blank hc]
    exact ih hts hapart taken (n + 1) hfuel
  | @token ts s t hs ih =>
    rw [List.length_cons] at hfuel
    obtain ⟨n, rfl⟩ : ∃ n, fuel = n + 1 := ⟨fuel - 1, by omega⟩
    rw [List.isChain_cons] at hapart
    -- a number ends where no other number follows
    have hends : t.isNumber = true → Ends s := fun ht => hs.ends fun u hu => hapart.1 u hu ht
    obtain ⟨ls, hls, htokens⟩ := ih (fun u hu => hts u (List.mem_cons_of_mem _ hu)) hapart.2
      (⟨.token t, t.toText ++ s⟩ :: taken) n (by omega)
    refine ⟨⟨.token t, t.toText ++ s⟩ :: ls, ?_, ?_⟩
    · rw [lexemes_token (hts t List.mem_cons_self) hends, hls, List.reverse_cons,
        List.append_assoc]
      rfl
    · rw [List.map_cons, List.map_cons, htokens]

theorem Spaced.length_le {ts : List Token} {s : Text} (h : Spaced ts s)
    (hts : ∀ t ∈ ts, t.IsExact) : ts.length ≤ s.length := by
  induction h with
  | nil => exact Nat.le_refl 0
  | blank _ _ ih => exact Nat.le_succ_of_le (ih hts)
  | @token ts s t _ ih =>
    obtain ⟨c, u, hcu, -, -⟩ := Token.exists_toText_eq_cons (hts t List.mem_cons_self)
    have := ih fun u hu => hts u (List.mem_cons_of_mem _ hu)
    rw [hcu, List.length_cons, List.length_append, List.length_cons]
    omega

end PropertyList.Json
