/-
  PropertyList.Proofs.Xml.FirstBytes

  How the bytes of a document start.  A document that is read starts with an XML
  declaration, or with markup behind nothing but white space.  Its first
  characters are therefore ASCII, and in UTF-8 its first bytes are these
  characters; only in UTF-16 without a byte order mark do they look different.
-/
import PropertyList.Codec
import PropertyList.Proofs.Text.Coding
import PropertyList.Proofs.Value

namespace PropertyList.Xml

/-! ## The prolog -/

/-- The tokens that may stand at the start of a document. -/
def PrologToken.isMarkup : PrologToken → Bool
  | .instruction => true
  | .comment => true
  | .declaration _ => true
  | _ => false

section Prolog

variable {α : Alphabet} {atEnd : Bool} {c : Char} {s rest : List Char} {token : PrologToken}

theorem isMarkup_of_takePercent (h : takePercent? α s = some (token, rest)) :
    token.isMarkup = false := by
  unfold takePercent? at h
  split at h
  · cases h
  split at h
  · obtain ⟨rfl, -⟩ := Prod.mk.inj (Option.some.inj h)
    rfl
  split at h
  · obtain ⟨rfl, -⟩ := Prod.mk.inj (Option.some.inj h)
    rfl
  · cases h

theorem isMarkup_of_takeWord (h : takeWord? α atEnd s = some (token, rest)) :
    token.isMarkup = false := by
  unfold takeWord? at h
  dsimp only at h
  split at h
  · cases h
  split at h
  · obtain ⟨rfl, -⟩ := Prod.mk.inj (Option.some.inj h)
    split <;> rfl
  split at h
  · split at h
    · obtain ⟨rfl, -⟩ := Prod.mk.inj (Option.some.inj h)
      rfl
    · cases h
  · cases h

theorem isMarkup_of_quoted (h : takePrologToken?.quoted atEnd c s = some (token, rest)) :
    token.isMarkup = false := by
  unfold takePrologToken?.quoted at h
  split at h
  · split at h
    · obtain ⟨rfl, -⟩ := Prod.mk.inj (Option.some.inj h)
      rfl
    · cases h
  · cases h

/-- Only an angle bracket starts markup. -/
theorem eq_of_takePrologToken (h : takePrologToken? α atEnd c s = some (token, rest))
    (htoken : token.isMarkup = true) : c = '<' := by
  have hother {u : List Char} {t : PrologToken} (h : some (t, u) = some (token, rest))
      (ht : t.isMarkup = false) : token.isMarkup = false := by
    obtain ⟨rfl, -⟩ := Prod.mk.inj (Option.some.inj h)
    exact ht
  by_contra hc
  -- with any other character in front, each kind of token is not markup
  have hnot : token.isMarkup = false := by
    unfold takePrologToken? at h
    split at h
    case h_1 => exact isMarkup_of_quoted h
    case h_2 => exact isMarkup_of_quoted h
    case h_3 => exact absurd rfl hc
    case h_4 => exact isMarkup_of_takePercent h
    case h_7 => split at h <;> exact hother h rfl
    case h_9 =>
      split at h
      · split at h
        · exact hother h rfl
        split at h
        · exact hother h rfl
        · cases h
      · cases h
    case h_12 =>
      split at h
      · split at h
        · exact hother h rfl
        · cases h
      · cases h
    case h_13 => exact isMarkup_of_takeWord h
    all_goals exact hother h rfl
  rw [hnot] at htoken
  cases htoken

/-- The tokens that were taken stay in front. -/
theorem exists_prologTokens_eq (fuel : Nat) (taken : List PrologToken) (s : List Char) :
    ∃ more, (prologTokens α atEnd fuel taken s).1 = taken.reverse ++ more := by
  induction fuel generalizing taken s with
  | zero => exact ⟨[], (List.append_nil _).symm⟩
  | succ n ih =>
    unfold prologTokens
    split
    · exact ⟨[], (List.append_nil _).symm⟩
    · split
      · exact ⟨[], (List.append_nil _).symm⟩
      split
      · next token rest _ =>
        obtain ⟨more, hmore⟩ := ih (token :: taken) rest
        refine ⟨token :: more, ?_⟩
        rw [hmore, List.reverse_cons, List.append_assoc, List.singleton_append]
      · exact ⟨[], (List.append_nil _).symm⟩

/-- Tokens that do not start with markup are no prolog. -/
theorem dropMisc_of_not_isMarkup {token : PrologToken} (h : token.isMarkup = false)
    (tokens : List PrologToken) : dropMisc (token :: tokens) = token :: tokens := by
  cases token <;> first
    | rfl
    | cases h

/-- What can be read as a prolog starts with markup, behind nothing but white space. -/
theorem exists_of_readProlog {src : Source} {r : Bool × List Char} (h : readProlog src = .ok r) :
    ∃ cs, src.chars.dropWhile isSpace = '<' :: cs := by
  unfold readProlog at h
  dsimp only at h
  generalize decide (src.ending ≠ .illegal) = atEnd at h
  rw [prologTokens] at h
  cases hchars : src.chars.dropWhile isSpace with
  | nil =>
    -- there is no root element
    rw [hchars] at h
    cases h
  | cons c s =>
    rw [hchars] at h
    by_cases hc : c = '<'
    · exact ⟨s, by rw [hc]⟩
    have hroot : (decide (c = '<') && s.head?.any src.alphabet.starts) = false := by
      rw [decide_eq_false hc, Bool.false_and]
    simp only [hroot, Bool.false_eq_true, if_false] at h
    cases htoken : takePrologToken? src.alphabet atEnd c s with
    | none =>
      rw [htoken] at h
      cases h
    | some taken =>
      obtain ⟨token, rest⟩ := taken
      have hmarkup : token.isMarkup = false :=
        Bool.eq_false_iff.mpr fun hmarkup => hc (eq_of_takePrologToken htoken hmarkup)
      rw [htoken] at h
      dsimp only at h
      -- all tokens come behind this one, which is neither skipped nor a declaration
      obtain ⟨more, hmore⟩ :=
        @exists_prologTokens_eq src.alphabet atEnd src.chars.length [token] rest
      generalize prologTokens src.alphabet atEnd src.chars.length [token] rest = scanned at h hmore
      obtain ⟨tokens, root⟩ := scanned
      have htokens : tokens = token :: more := hmore
      rw [htokens, dropMisc_of_not_isMarkup hmarkup] at h
      cases token with
      | declaration keyword => cases hmarkup
      | _ =>
        dsimp only [bind, Except.bind] at h
        rw [dropMisc_of_not_isMarkup hmarkup] at h
        cases h

/-- What can be read as a document has a prolog. -/
theorem exists_of_readDocument {src : Source} {v : Value} (h : readDocument src = .ok v) :
    ∃ r, readProlog src = .ok r := by
  cases hprolog : readProlog src with
  | ok r => exact ⟨r, rfl⟩
  | error f =>
    have hevents : Event.ofSource src = ([], some f) := by
      rw [Event.ofSource, hprolog]
    rw [readDocument, hevents] at h
    cases h

end Prolog

/-! ## The first characters -/

/-- Bytes that start with an angle bracket, behind nothing but white space. -/
inductive OpensMarkup (k : Coding) : List UInt8 → Prop where
  | bracket {s t : List UInt8} (h : k.nextLegal? s = some ('<', t)) : OpensMarkup k s
  | space {s t : List UInt8} {c : Char} (h : k.nextLegal? s = some (c, t)) (hc : isSpace c = true)
      (ht : OpensMarkup k t) : OpensMarkup k s

section Opening

variable {k : Coding} {bytes s t : List UInt8} {c : Char}

/-- Characters that start with markup come from bytes that do. -/
theorem opensMarkup_of_readAll {fuel : Nat} {cs : List Char}
    (h : (readAll k.nextLegal? fuel [] s).1.dropWhile isSpace = '<' :: cs) : OpensMarkup k s := by
  induction fuel generalizing s with
  | zero => cases h
  | succ n ih =>
    rw [readAll] at h
    cases hnext : k.nextLegal? s with
    | none =>
      rw [hnext] at h
      cases h
    | some taken =>
      obtain ⟨c, t⟩ := taken
      rw [hnext] at h
      dsimp only at h
      rw [readAll_taken, List.reverse_singleton, List.singleton_append, List.dropWhile_cons] at h
      split at h
      · next hspace => exact .space hnext hspace (ih h)
      · rw [(List.cons.inj h).1] at hnext
        exact .bracket hnext

theorem opensMarkup_of_startsDeclaration (h : startsDeclaration k s = true) : OpensMarkup k s := by
  rw [startsDeclaration, takeChars?] at h
  cases hnext : k.nextLegal? s with
  | none =>
    rw [hnext] at h
    cases h
  | some taken =>
    obtain ⟨c, t⟩ := taken
    rw [hnext] at h
    simp only [Option.bind_eq_bind, Option.bind_some] at h
    cases hrest : takeChars? k 5 t with
    | none =>
      rw [hrest] at h
      cases h
    | some rest =>
      rw [hrest] at h
      obtain ⟨hfive, -⟩ := (Bool.and_eq_true _ _).mp h
      have hc : c = '<' := (List.cons.inj (of_decide_eq_true hfive)).1
      rw [hc] at hnext
      exact .bracket hnext

/-- The bytes of a document that is read open its markup, in the coding that they show. -/
theorem opensMarkup_of_read {v : Value} (h : read bytes = .ok v) :
    OpensMarkup (detectCoding bytes).1 (detectCoding bytes).2 := by
  rw [read] at h
  cases hsource : Source.read bytes with
  | error f =>
    rw [hsource] at h
    cases f <;> cases h
  | ok src =>
    rw [hsource] at h
    obtain ⟨r, hprolog⟩ := exists_of_readDocument h
    obtain ⟨cs, hchars⟩ := exists_of_readProlog hprolog
    rw [Source.read] at hsource
    generalize detectCoding bytes = detected at hsource ⊢
    obtain ⟨k, rest⟩ := detected
    dsimp only at hsource ⊢
    by_cases hstarts : startsDeclaration k rest = true
    · exact opensMarkup_of_startsDeclaration hstarts
    · rw [if_neg hstarts] at hsource
      obtain rfl := Except.ok.inj hsource
      exact opensMarkup_of_readAll hchars

end Opening

/-! ## The first bytes -/

section Bytes

variable {k : Coding} {s t : List UInt8} {c : Char}

/-- A legal character is the one that was read, or a line feed for a carriage return, perhaps
    together with a line feed behind it. -/
theorem next?_of_nextLegal? (h : k.nextLegal? s = some (c, t)) :
    k.next? s = some (c, t) ∨ c = '\n' ∧ ∃ u, k.next? s = some ('\r', u) ∧
      (u = t ∨ k.next? u = some ('\n', t)) := by
  unfold Coding.nextLegal? at h
  split at h
  · cases h
  next d u hnext =>
  split at h
  · cases h
  split at h
  · next hreturn =>
    rw [hreturn] at hnext
    split at h
    · next v hfeed =>
      obtain ⟨rfl, rfl⟩ := Prod.mk.inj (Option.some.inj h)
      exact .inr ⟨rfl, u, hnext, .inr hfeed⟩
    · obtain ⟨rfl, rfl⟩ := Prod.mk.inj (Option.some.inj h)
      exact .inr ⟨rfl, u, hnext, .inl rfl⟩
  · obtain ⟨rfl, rfl⟩ := Prod.mk.inj (Option.some.inj h)
    exact .inl hnext

theorem isSpace_iff : isSpace c = true ↔ c = ' ' ∨ c = '\n' ∨ c = '\t' ∨ c = '\r' := by
  simp only [isSpace, Bool.or_eq_true, decide_eq_true_eq, or_assoc]

/-- The byte of white space is a blank. -/
theorem isLeadingBlank_of_isSpace {b : UInt8} (hb : b.toNat = c.toNat) (hc : isSpace c = true) :
    isLeadingBlank b = true := by
  have heq {n : UInt8} (hn : n.toNat = c.toNat) : b = n := UInt8.toNat_inj.mp (hb.trans hn.symm)
  rcases isSpace_iff.mp hc with rfl | rfl | rfl | rfl
  · rw [@heq 0x20 rfl]
    rfl
  · rw [@heq 0x0A rfl]
    rfl
  · rw [@heq 0x09 rfl]
    rfl
  · rw [@heq 0x0D rfl]
    rfl

theorem toNat_lt_of_isSpace (hc : isSpace c = true) : c.toNat < 0x80 := by
  rcases isSpace_iff.mp hc with rfl | rfl | rfl | rfl <;> decide

/-- An ASCII character of UTF-8 is its byte. -/
theorem exists_of_next?_utf8 (h : Coding.next? .utf8 s = some (c, t)) (hc : c.toNat < 0x80) :
    ∃ b, s = b :: t ∧ b.toNat = c.toNat := by
  obtain ⟨⟨p, u⟩, hnext, h⟩ := Option.bind_eq_some_iff.mp h
  obtain ⟨d, hd, h⟩ := Option.map_eq_some_iff.mp h
  obtain ⟨rfl, rfl⟩ := Prod.mk.inj h
  cases p with
  | surrogate k => cases hd
  | scalar d =>
    obtain rfl := Option.some.inj hd
    exact Utf8.exists_of_next?_lt hnext hc

theorem dropLeadingBlanks_cons {b : UInt8} (hb : isLeadingBlank b = true) (s : List UInt8) :
    dropLeadingBlanks (b :: s) = dropLeadingBlanks s :=
  List.dropWhile_cons_of_pos hb

/-- Blanks in front of the markup of UTF-8 are dropped. -/
theorem dropLeadingBlanks_of_space (h : Coding.nextLegal? .utf8 s = some (c, t))
    (hc : isSpace c = true) : dropLeadingBlanks s = dropLeadingBlanks t := by
  have hdrop {d : Char} {u v : List UInt8} (h : Coding.next? .utf8 u = some (d, v))
      (hd : isSpace d = true) : dropLeadingBlanks u = dropLeadingBlanks v := by
    obtain ⟨b, rfl, hb⟩ := exists_of_next?_utf8 h (toNat_lt_of_isSpace hd)
    exact dropLeadingBlanks_cons (isLeadingBlank_of_isSpace hb hd) v
  rcases next?_of_nextLegal? h with hnext | ⟨-, u, hreturn, rfl | hfeed⟩
  · exact hdrop hnext hc
  · exact hdrop hreturn rfl
  · exact (hdrop hreturn rfl).trans (hdrop hfeed rfl)

/-- Markup of UTF-8 starts with the byte of its bracket, behind nothing but blanks. -/
theorem exists_dropLeadingBlanks_eq (h : OpensMarkup .utf8 s) :
    ∃ t, dropLeadingBlanks s = 0x3C :: t := by
  induction h with
  | @bracket s t h =>
    rcases next?_of_nextLegal? h with h | ⟨hc, -⟩
    · obtain ⟨b, rfl, hb⟩ := exists_of_next?_utf8 h (by decide)
      have hbracket : b = 0x3C := UInt8.toNat_inj.mp hb
      subst hbracket
      exact ⟨t, rfl⟩
    · exact absurd hc (by decide)
  | space h hc _ ih =>
    rw [dropLeadingBlanks_of_space h hc]
    exact ih

/-- Markup of UTF-16 starts with the unit of its bracket or of a blank. -/
theorem bracket_or_blank_of_little {a : UInt8}
    (h : OpensMarkup (.utf16 .little) (a :: 0 :: s)) : a = 0x3C ∨ isLeadingBlank a = true := by
  -- the first unit is a number below 256, and so is its character
  have hunit {c : Char} {t : List UInt8}
      (h : Coding.next? (.utf16 .little) (a :: 0 :: s) = some (c, t)) : a.toNat = c.toNat := by
    have hnat : Utf16.unit .little a 0 = a.toNat := by
      show (0 : UInt8).toNat * 256 + a.toNat = a.toNat
      exact Nat.zero_add _
    have hlt := a.toNat_lt
    have hhigh : Utf16.isHigh a.toNat = false := by
      rw [Utf16.isHigh, decide_eq_false (by omega), Bool.false_and]
    change nextUtf16? .little (a :: 0 :: s) = some (c, t) at h
    simp only [nextUtf16?, hnat, hhigh, Bool.false_eq_true, if_false] at h
    obtain ⟨p, hp, h⟩ := Option.bind_eq_some_iff.mp h
    obtain ⟨d, hd, h⟩ := Option.map_eq_some_iff.mp h
    obtain ⟨rfl, -⟩ := Prod.mk.inj h
    have hpoint := CodePoint.toNat_of_ofNat? hp
    cases p with
    | surrogate k => cases hd
    | scalar d =>
      obtain rfl := Option.some.inj hd
      exact hpoint.symm
  cases h with
  | bracket h =>
    rcases next?_of_nextLegal? h with h | ⟨hc, -⟩
    · exact .inl (UInt8.toNat_inj.mp (hunit h))
    · exact absurd hc (by decide)
  | space h hc _ =>
    rcases next?_of_nextLegal? h with h | ⟨-, u, h, -⟩
    · exact .inr (isLeadingBlank_of_isSpace (hunit h) hc)
    · exact .inr (isLeadingBlank_of_isSpace (hunit h) rfl)

end Bytes

end PropertyList.Xml
