/-
  PropertyList.Proofs.Xml.Suffix

  What the parts of markup leave over.  Each part is taken off the front, so what follows it
  is an end part of the characters; a token of the prolog takes at least its first character.
  The fuel of a loop over parts therefore makes no difference, as long as there is enough.
-/
import PropertyList.Proofs.Value
import PropertyList.Xml.Event
import Mathlib.Data.List.TakeDrop

namespace PropertyList.Xml

variable {α : Alphabet} {s t rest : List Char} {name : List Char}

/-! ## Names and references -/

theorem span_suffix {p : Char → Bool} : (s.span p).2 <:+ s := by
  rw [List.span_eq_takeWhile_dropWhile]
  exact List.dropWhile_suffix p

/-- What follows white space. -/
theorem suffix_of_dropWhile {p : Char → Bool} (h : s.dropWhile p = t) : t <:+ s :=
  h ▸ List.dropWhile_suffix p

theorem takeName?_suffix (h : takeName? α s = some (name, rest)) : rest <:+ s := by
  cases s with
  | nil => cases h
  | cons c s =>
    rw [takeName?] at h
    split at h
    · obtain ⟨-, rfl⟩ := Prod.mk.inj (Option.some.inj h)
      exact span_suffix.trans (List.suffix_cons c s)
    · cases h

theorem takeCharNumber?_suffix {base : Nat} {digit? : Char → Option Nat} {r : Reference}
    (h : takeCharNumber? base digit? s = some (r, rest)) : rest <:+ s := by
  have hspan : (s.span fun c => (digit? c).isSome).2 <:+ s := span_suffix
  unfold takeCharNumber? at h
  generalize s.span (fun c => (digit? c).isSome) = digits at h hspan
  obtain ⟨ds, after⟩ := digits
  dsimp only at h
  split at h
  · obtain ⟨c, -, h⟩ := Option.bind_eq_some_iff.mp h
    obtain ⟨-, rfl⟩ := Prod.mk.inj (Option.some.inj h)
    exact (List.suffix_cons _ _).trans hspan
  · cases h

theorem takeReference?_suffix {r : Reference} (h : takeReference? α s = some (r, rest)) :
    rest <:+ s := by
  unfold takeReference? at h
  split at h
  · exact (takeCharNumber?_suffix h).trans ((List.suffix_cons _ _).trans (List.suffix_cons _ _))
  · exact (takeCharNumber?_suffix h).trans (List.suffix_cons _ _)
  · split at h
    · next hname =>
      obtain ⟨-, rfl⟩ := Prod.mk.inj (Option.some.inj h)
      exact (List.suffix_cons _ _).trans (takeName?_suffix hname)
    · cases h

/-! ## Comments, instructions and sections -/

theorem dropComment?_suffix (h : dropComment? s = some rest) : rest <:+ s := by
  fun_induction dropComment? s with
  | case1 t =>
    obtain rfl := Option.some.inj h
    exact List.suffix_append ['-', '-', '>'] t
  | case2 => cases h
  | case3 c t _ _ ih => exact (ih h).trans (List.suffix_cons c t)
  | case4 => cases h

theorem dropThroughInstructionEnd?_suffix (h : dropThroughInstructionEnd? s = some rest) :
    rest <:+ s := by
  fun_induction dropThroughInstructionEnd? s with
  | case1 t =>
    obtain rfl := Option.some.inj h
    exact List.suffix_append ['?', '>'] t
  | case2 c t _ ih => exact (ih h).trans (List.suffix_cons c t)
  | case3 => cases h

theorem dropInstruction?_suffix (h : dropInstruction? α s = some rest) : rest <:+ s := by
  unfold dropInstruction? at h
  split at h
  · cases h
  next name after hname =>
  have hafter := takeName?_suffix hname
  split at h
  · cases h
  split at h
  · obtain rfl := Option.some.inj h
    exact (List.suffix_append ['?', '>'] _).trans hafter
  · split at h
    · exact (dropThroughInstructionEnd?_suffix h).trans ((List.suffix_cons _ _).trans hafter)
    · cases h
  · cases h

theorem takeSection?_suffix {taken text : List Char}
    (h : takeSection? taken s = some (text, rest)) : rest <:+ s := by
  fun_induction takeSection? taken s with
  | case1 taken t =>
    obtain ⟨-, rfl⟩ := Prod.mk.inj (Option.some.inj h)
    exact List.suffix_append [']', ']', '>'] t
  | case2 taken c t _ ih => exact (ih h).trans (List.suffix_cons c t)
  | case3 => cases h

theorem takeCharacters?_suffix {taken text : List Char}
    (h : takeCharacters? taken s = some (text, rest)) : rest <:+ s := by
  fun_induction takeCharacters? taken s with
  | case1 => cases h
  | case2 taken c t _ _ =>
    obtain ⟨-, rfl⟩ := Prod.mk.inj (Option.some.inj h)
    exact List.suffix_refl _
  | case3 taken c t _ _ ih => exact (ih h).trans (List.suffix_cons c t)
  | case4 =>
    obtain ⟨-, rfl⟩ := Prod.mk.inj (Option.some.inj h)
    exact List.suffix_refl _

/-! ## Attributes and tags -/

/-- A value is taken with the quotes around it. -/
theorem takeValue?_cons_suffix {c : Char} {value : List Char}
    (h : takeValue? (c :: s) = some (value, rest)) : rest <:+ s := by
  unfold takeValue? at h
  dsimp only at h
  split at h
  · split at h
    · next hspan =>
      obtain ⟨-, rfl⟩ := Prod.mk.inj (Option.some.inj h)
      have hafter := @span_suffix s (· ≠ c)
      rw [hspan] at hafter
      exact (List.suffix_cons _ _).trans hafter
    · cases h
  · cases h

theorem takeValue?_suffix {value : List Char} (h : takeValue? s = some (value, rest)) :
    rest <:+ s := by
  cases s with
  | nil => cases h
  | cons c s => exact (takeValue?_cons_suffix h).trans (List.suffix_cons c s)

theorem takeAttribute?_suffix {complete : Bool}
    (h : takeAttribute? α complete s = some (name, rest)) : rest <:+ s := by
  obtain ⟨⟨taken, after⟩, hname, h⟩ := Option.bind_eq_some_iff.mp h
  dsimp only at h
  split at h
  · next hequals =>
    obtain ⟨⟨value, behind⟩, hvalue, h⟩ := Option.bind_eq_some_iff.mp h
    dsimp only at h
    split at h
    · obtain ⟨-, rfl⟩ := Prod.mk.inj (Option.some.inj h)
      have hequal := (List.suffix_cons _ _).trans (suffix_of_dropWhile hequals)
      have hquote := (takeValue?_suffix hvalue).trans (List.dropWhile_suffix isSpace)
      exact (hquote.trans hequal).trans (takeName?_suffix hname)
    · cases h
  · cases h

theorem dropAttributes?_suffix {complete : Bool} {fuel : Nat} {names : List (List Char)}
    {tagEnd : TagEnd} (h : dropAttributes? α complete fuel names s = some (tagEnd, rest)) :
    rest <:+ s := by
  induction fuel generalizing names s with
  | zero => cases h
  | succ fuel ih =>
    unfold dropAttributes? at h
    split at h
    · obtain ⟨-, rfl⟩ := Prod.mk.inj (Option.some.inj h)
      exact List.suffix_cons _ _
    · obtain ⟨-, rfl⟩ := Prod.mk.inj (Option.some.inj h)
      exact List.suffix_append ['/', '>'] _
    · next c t _ _ =>
      refine List.IsSuffix.trans ?_ (List.suffix_cons c t)
      split at h
      · split at h
        · next hend =>
          obtain ⟨-, rfl⟩ := Prod.mk.inj (Option.some.inj h)
          exact (List.suffix_cons _ _).trans (suffix_of_dropWhile hend)
        · next hend =>
          obtain ⟨-, rfl⟩ := Prod.mk.inj (Option.some.inj h)
          exact (List.suffix_append ['/', '>'] _).trans (suffix_of_dropWhile hend)
        · split at h
          · next hattribute =>
            split at h
            · cases h
            · exact (ih h).trans
                ((takeAttribute?_suffix hattribute).trans (List.dropWhile_suffix isSpace))
          · cases h
      · cases h
    · cases h

theorem takeStartTag?_suffix {complete : Bool} {fuel : Nat} {tagEnd : TagEnd}
    (h : takeStartTag? α complete fuel s = some (name, tagEnd, rest)) : rest <:+ s := by
  obtain ⟨⟨taken, after⟩, hname, h⟩ := Option.bind_eq_some_iff.mp h
  obtain ⟨⟨closing, behind⟩, hattributes, h⟩ := Option.bind_eq_some_iff.mp h
  obtain ⟨-, h⟩ := Prod.mk.inj (Option.some.inj h)
  obtain ⟨-, rfl⟩ := Prod.mk.inj h
  exact (dropAttributes?_suffix hattributes).trans (takeName?_suffix hname)

theorem takeEndTag?_suffix (h : takeEndTag? α s = some (name, rest)) : rest <:+ s := by
  obtain ⟨⟨taken, after⟩, hname, h⟩ := Option.bind_eq_some_iff.mp h
  dsimp only at h
  split at h
  · next hend =>
    obtain ⟨-, rfl⟩ := Prod.mk.inj (Option.some.inj h)
    exact ((List.suffix_cons _ _).trans (suffix_of_dropWhile hend)).trans (takeName?_suffix hname)
  · cases h

/-! ## Tokens of the prolog -/

section Tokens

variable {atEnd : Bool} {c : Char} {token : PrologToken}

theorem takeBang?_suffix (h : takeBang? s = some (token, rest)) : rest <:+ s := by
  unfold takeBang? at h
  split at h
  · obtain ⟨after, hcomment, h⟩ := Option.map_eq_some_iff.mp h
    obtain ⟨-, rfl⟩ := Prod.mk.inj h
    exact (dropComment?_suffix hcomment).trans (List.suffix_append ['-', '-'] _)
  · cases h
  · obtain ⟨-, rfl⟩ := Prod.mk.inj (Option.some.inj h)
    exact List.suffix_cons _ _
  · have hspan := @span_suffix s fun c => c.isAlpha || c = '_' || c = ':'
    generalize s.span _ = taken at h hspan
    obtain ⟨keyword, after⟩ := taken
    dsimp only at h
    split at h
    · split at h
      · obtain ⟨-, rfl⟩ := Prod.mk.inj (Option.some.inj h)
        exact hspan
      · cases h
    · cases h

theorem takePercent?_suffix (h : takePercent? α s = some (token, rest)) : rest <:+ s := by
  unfold takePercent? at h
  split at h
  · cases h
  split at h
  · obtain ⟨-, rfl⟩ := Prod.mk.inj (Option.some.inj h)
    exact List.suffix_refl _
  split at h
  · next hname =>
    obtain ⟨-, rfl⟩ := Prod.mk.inj (Option.some.inj h)
    exact (List.suffix_cons _ _).trans (takeName?_suffix hname)
  · cases h

theorem quoted_suffix (h : takePrologToken?.quoted atEnd c s = some (token, rest)) :
    rest <:+ s := by
  unfold takePrologToken?.quoted at h
  split at h
  · next hvalue =>
    split at h
    · obtain ⟨-, rfl⟩ := Prod.mk.inj (Option.some.inj h)
      exact takeValue?_cons_suffix hvalue
    · cases h
  · cases h

/-- A word has a character, so it does not leave the first one over. -/
theorem takeWord?_suffix (h : takeWord? α atEnd (c :: s) = some (token, rest)) : rest <:+ s := by
  rw [takeWord?, List.span_eq_takeWhile_dropWhile] at h
  dsimp only at h
  split at h
  · cases h
  next hword =>
  have hc : α.continues c = true := by
    by_contra hc
    rw [List.takeWhile_cons_of_neg hc] at hword
    exact hword rfl
  rw [List.dropWhile_cons_of_pos hc] at h
  have hafter := List.dropWhile_suffix (l := s) α.continues
  split at h
  · obtain ⟨-, rfl⟩ := Prod.mk.inj (Option.some.inj h)
    exact hafter
  split at h
  · next hmark =>
    split at h
    · obtain ⟨-, rfl⟩ := Prod.mk.inj (Option.some.inj h)
      rw [hmark] at hafter
      exact (List.suffix_cons _ _).trans hafter
    · cases h
  · cases h

/-- A token takes its first character, and perhaps more of them. -/
theorem takePrologToken?_suffix (h : takePrologToken? α atEnd c s = some (token, rest)) :
    rest <:+ s := by
  have hlone {t : PrologToken} (h : some (t, s) = some (token, rest)) : rest <:+ s := by
    obtain ⟨-, rfl⟩ := Prod.mk.inj (Option.some.inj h)
    exact List.suffix_refl _
  unfold takePrologToken? at h
  split at h
  · exact quoted_suffix h
  · exact quoted_suffix h
  · -- an angle bracket
    split at h
    · exact (takeBang?_suffix h).trans (List.suffix_cons _ _)
    · obtain ⟨after, hinstruction, h⟩ := Option.map_eq_some_iff.mp h
      obtain ⟨-, rfl⟩ := Prod.mk.inj h
      exact (dropInstruction?_suffix hinstruction).trans (List.suffix_cons _ _)
    · cases h
  · exact takePercent?_suffix h
  · exact hlone h
  · exact hlone h
  · -- a closing bracket, or two of them and an angle bracket
    split at h
    · obtain ⟨-, rfl⟩ := Prod.mk.inj (Option.some.inj h)
      exact List.suffix_append [']', '>'] _
    · exact hlone h
  · exact hlone h
  · -- a closing parenthesis
    split at h
    · split at h
      · obtain ⟨-, rfl⟩ := Prod.mk.inj (Option.some.inj h)
        exact List.suffix_cons _ _
      split at h
      · exact hlone h
      · cases h
    · cases h
  · exact hlone h
  · exact hlone h
  · -- a reserved word
    split at h
    · next hname =>
      split at h
      · obtain ⟨-, rfl⟩ := Prod.mk.inj (Option.some.inj h)
        exact takeName?_suffix hname
      · cases h
    · cases h
  · exact takeWord?_suffix h

/-- Reading the prolog needs no more fuel than there are characters, and white space in front of it
    makes no difference. -/
theorem prologTokens_congr {fuel fuel' : Nat} (taken : List PrologToken) {s t : List Char}
    (hspace : s.dropWhile isSpace = t.dropWhile isSpace) (hfuel : s.length < fuel)
    (hfuel' : t.length < fuel') :
    prologTokens α atEnd fuel taken s = prologTokens α atEnd fuel' taken t := by
  -- what is behind a token is shorter than what starts with it
  induction fuel generalizing fuel' taken s t with
  | zero => omega
  | succ fuel ih =>
    obtain ⟨n, rfl⟩ : ∃ n, fuel' = n + 1 := ⟨fuel' - 1, by omega⟩
    have hs := (List.dropWhile_suffix (l := s) isSpace).length_le
    have ht := (List.dropWhile_suffix (l := t) isSpace).length_le
    rw [prologTokens, prologTokens, ← hspace]
    rw [← hspace] at ht
    cases hrest : s.dropWhile isSpace with
    | nil => rfl
    | cons c u =>
      rw [hrest, List.length_cons] at hs ht
      dsimp only
      split
      · rfl
      cases htoken : takePrologToken? α atEnd c u with
      | none => rfl
      | some taken =>
        obtain ⟨token, after⟩ := taken
        have hafter := (takePrologToken?_suffix htoken).length_le
        exact ih _ rfl (by omega) (by omega)

/-- The root element is an end part of the characters. -/
theorem prologTokens_suffix {fuel : Nat} {taken : List PrologToken} {root : List Char}
    (h : (prologTokens α atEnd fuel taken s).2 = some root) : root <:+ s := by
  induction fuel generalizing taken s with
  | zero => cases h
  | succ fuel ih =>
    unfold prologTokens at h
    split at h
    · cases h
    · next c u hdrop =>
      have hu : c :: u <:+ s := suffix_of_dropWhile hdrop
      split at h
      · obtain rfl := Option.some.inj h
        exact hu
      split at h
      · next htoken =>
        exact ((ih h).trans (takePrologToken?_suffix htoken)).trans ((List.suffix_cons c u).trans hu)
      · cases h

end Tokens

/-! ## Declarations -/

section Declarations

variable {α : Alphabet} {tokens rest : List PrologToken}

theorem closed_suffix (h : closed tokens = .ok rest) : rest <:+ tokens := by
  unfold closed at h
  split at h
  · obtain rfl := Except.ok.inj h
    exact List.suffix_cons _ _
  · cases h

/-- An identifier with its keyword is one or two texts in quotes. -/
theorem identified_suffix {keyword : List Char}
    (h : (match tokens with
      | .literal p :: .literal _ :: rest =>
        if keyword = "PUBLIC".toList && isPublicId p then some rest else none
      | .literal _ :: rest => if keyword = "SYSTEM".toList then some rest else none
      | _ => none) = some rest) : rest <:+ tokens := by
  split at h
  · split at h
    · obtain rfl := Option.some.inj h
      exact List.suffix_append [_, _] _
    · cases h
  · split at h
    · obtain rfl := Option.some.inj h
      exact List.suffix_cons _ _
    · cases h
  · cases h

theorem entityBody_suffix {d : Declarations} {effective general : Bool}
    (h : entityBody α d effective general tokens = .ok rest) : rest <:+ tokens := by
  unfold entityBody at h
  split at h
  · -- the value in quotes
    split at h
    · cases h
    split at h
    · cases h
    · exact (closed_suffix h).trans (List.suffix_cons _ _)
  · -- an identifier, and for an entity that is not parsed its notation
    refine List.IsSuffix.trans ?_ (List.suffix_cons _ _)
    dsimp only at h
    split at h
    · cases h
    · next hidentified =>
      split at h
      · cases h
      · obtain rfl := Except.ok.inj h
        exact (List.suffix_cons _ _).trans (identified_suffix hidentified)
    · next hidentified =>
      split at h
      · split at h
        · cases h
        · exact ((closed_suffix h).trans (List.suffix_append [_, _] _)).trans
            (identified_suffix hidentified)
      · cases h
    · cases h
  · cases h

theorem entityDeclaration_suffix {d : Declarations} (h : entityDeclaration α d tokens = .ok rest) :
    rest <:+ tokens := by
  unfold entityDeclaration at h
  split at h
  · exact (entityBody_suffix h).trans ((List.suffix_cons _ _).trans (List.suffix_cons _ _))
  · exact (entityBody_suffix h).trans (List.suffix_cons _ _)
  · cases h

theorem notationDeclaration_suffix (h : notationDeclaration tokens = .ok rest) :
    rest <:+ tokens := by
  unfold notationDeclaration at h
  split at h
  · next name keyword p after =>
    have hafter : after <:+ .name name :: .name keyword :: .literal p :: after :=
      List.suffix_append [_, _, _] after
    split at h
    · exact (closed_suffix h).trans hafter
    split at h
    · split at h
      · exact ((closed_suffix h).trans (List.suffix_cons _ _)).trans hafter
      · exact (closed_suffix h).trans hafter
    · cases h
  · cases h

theorem attributeDefinitions_suffix {d : Declarations} {state : AttributeState}
    (h : attributeDefinitions α d state tokens = .ok rest) : rest <:+ tokens := by
  fun_induction attributeDefinitions α d state tokens
  case case2 => exact Except.ok.inj h ▸ List.suffix_cons _ _
  -- every other definition is refused, or goes on behind its first token
  all_goals first
    | cases h
    | exact (‹_ = Except.ok rest → rest <:+ _› h).trans (List.suffix_cons _ _)

theorem contentGroups_suffix {afterPart : Bool} {groups : List (Option Connector)}
    (h : contentGroups afterPart groups tokens = .ok rest) : rest <:+ tokens := by
  fun_induction contentGroups afterPart groups tokens
  case case5 => exact (closed_suffix h).trans (List.suffix_cons _ _)
  all_goals first
    | cases h
    | exact (‹_ = Except.ok rest → rest <:+ _› h).trans (List.suffix_cons _ _)

theorem mixedNames_suffix (h : mixedNames tokens = .ok rest) : rest <:+ tokens := by
  fun_induction mixedNames tokens with
  | case1 _ after ih => exact (ih h).trans (List.suffix_append [_, _] after)
  | case2 _ after => exact (closed_suffix h).trans (List.suffix_append [_, _] after)
  | case3 => cases h

theorem elementDeclaration_suffix (h : elementDeclaration tokens = .ok rest) : rest <:+ tokens := by
  unfold elementDeclaration at h
  split at h
  · split at h
    · exact (closed_suffix h).trans (List.suffix_append [_, _] _)
    · cases h
  · split at h
    · cases h
    split at h
    · exact (closed_suffix h).trans (List.suffix_append [_, _, _, _] _)
    · exact (closed_suffix h).trans (List.suffix_append [_, _, _, _] _)
    · exact (mixedNames_suffix h).trans (List.suffix_append [_, _, _, _] _)
    · cases h
  · exact (contentGroups_suffix h).trans (List.suffix_append [_, _] _)
  · cases h

end Declarations
/-! ## Documents -/

theorem readProlog_suffix {src : Source} {complete : Bool} {root : List Char}
    (h : readProlog src = .ok (complete, root)) : root <:+ src.chars := by
  rw [readProlog] at h
  cases htokens : prologTokens src.alphabet (decide (src.ending ≠ .illegal))
    (src.chars.length + 1) [] src.chars with | mk tokens found
  rw [htokens] at h
  suffices hfound : found = some root from
    prologTokens_suffix ((congrArg Prod.snd htokens).trans hfound)
  dsimp only at h
  split at h
  · split at h
    · obtain ⟨r, -, h⟩ := exists_of_bind_eq_ok h
      split at h
      · rw [(Prod.mk.inj (Except.ok.inj h)).2]
      · cases h
    · cases h
  · obtain ⟨r, -, h⟩ := exists_of_bind_eq_ok h
    split at h
    · rw [(Prod.mk.inj (Except.ok.inj h)).2]
    · cases h

theorem dropWord?_suffix {word : String} (h : dropWord? word s = some rest) : rest <:+ s := by
  unfold dropWord? at h
  dsimp only at h
  split at h
  · obtain rfl := Option.some.inj h
    exact List.drop_suffix _ s
  · cases h

/-- What follows the root element. -/
theorem scanContent_suffix {complete : Bool} {fuel : Nat} {names : List (List Char)}
    {events : List Event} (h : (scanContent α complete fuel names events s).2 = some rest) :
    rest <:+ s := by
  induction fuel generalizing names events s with
  | zero => cases h
  | succ fuel ih =>
    unfold scanContent at h
    split at h
    · cases h
    · -- an end tag
      next t =>
      refine List.IsSuffix.trans ?_ (List.suffix_append ['<', '/'] t)
      split at h
      · next htag =>
        split at h
        · dsimp only at h
          split at h
          · obtain rfl := Option.some.inj h
            exact takeEndTag?_suffix htag
          · exact (ih h).trans (takeEndTag?_suffix htag)
        · cases h
      · cases h
    · -- a comment or a section
      next t =>
      refine List.IsSuffix.trans ?_ (List.suffix_append ['<', '!'] t)
      split at h
      · next hword =>
        split at h
        · next hcomment =>
          exact ((ih h).trans (dropComment?_suffix hcomment)).trans (dropWord?_suffix hword)
        · cases h
      · split at h
        · next hsection =>
          obtain ⟨u, hword, hsection⟩ := Option.bind_eq_some_iff.mp hsection
          exact ((ih h).trans (takeSection?_suffix hsection)).trans (dropWord?_suffix hword)
        · cases h
    · -- an instruction
      next t =>
      refine List.IsSuffix.trans ?_ (List.suffix_append ['<', '?'] t)
      split at h
      · next hinstruction => exact (ih h).trans (dropInstruction?_suffix hinstruction)
      · cases h
    · -- a start tag
      refine List.IsSuffix.trans ?_ (List.suffix_cons _ _)
      split at h
      · next htag => exact (ih h).trans (takeStartTag?_suffix htag)
      · next htag =>
        dsimp only at h
        split at h
        · obtain rfl := Option.some.inj h
          exact takeStartTag?_suffix htag
        · exact (ih h).trans (takeStartTag?_suffix htag)
      · cases h
    · -- a reference
      refine List.IsSuffix.trans ?_ (List.suffix_cons _ _)
      split at h
      · next hreference =>
        split at h
        · exact (ih h).trans (takeReference?_suffix hreference)
        · cases h
      · cases h
    · split at h
      · next hcharacters => exact (ih h).trans (takeCharacters?_suffix hcharacters)
      · cases h

end PropertyList.Xml
