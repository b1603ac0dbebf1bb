/-
  PropertyList.Proofs.Json.Derivation

  What is read can be derived.  `Reached` says what the text in front of a place is, if the
  machine stands there in a given state: the open containers with what fills them.  Every
  step of the machine keeps this, so the text of a whole run is derived.
-/
import PropertyList.Proofs.Json.Scanning

namespace PropertyList.Json

/-! ## White space -/

theorem isBlanks_nil : IsBlanks [] := List.forall_mem_nil _

theorem IsBlanks.append {w w' : List Char} (h : IsBlanks w) (h' : IsBlanks w') :
    IsBlanks (w ++ w') := List.forall_mem_append.mpr ⟨h, h'⟩

section Derived

variable {Fits : List Char → Prop} {w s : List Char}

/-- A value with white space in front of it, and none behind it yet. -/
theorem Derives.element_of_value {v : Value} (hw : IsBlanks w) (h : Derives Fits (.value v) s) :
    Derives Fits (.element v) (w ++ s) := by
  have helement := Derives.element hw h isBlanks_nil
  rwa [List.append_nil] at helement

/-- White space may follow whatever may end in an element. -/
theorem Derives.element_blanks {v : Value} (h : Derives Fits (.element v) s) (hw : IsBlanks w) :
    Derives Fits (.element v) (s ++ w) := by
  cases h with
  | element ha hv hb =>
    rw [List.append_assoc, List.append_assoc]
    exact .element ha hv (hb.append hw)

theorem Derives.elements_blanks {vs : List Value} (h : Derives Fits (.elements vs) s)
    (hw : IsBlanks w) : Derives Fits (.elements vs) (s ++ w) := by
  cases h with
  | firstElement hv => exact .firstElement (hv.element_blanks hw)
  | nextElement h hv =>
    rw [List.append_assoc]
    exact .nextElement h (hv.element_blanks hw)

theorem Derives.member_blanks {key : Text} {v : Value} (h : Derives Fits (.member key v) s)
    (hw : IsBlanks w) : Derives Fits (.member key v) (s ++ w) := by
  cases h with
  | member ha hk hb hv =>
    simp only [List.append_assoc, List.cons_append]
    exact .member ha hk hb (hv.element_blanks hw)

theorem Derives.members_blanks {es : List (Scalar × Value)} (h : Derives Fits (.members es) s)
    (hw : IsBlanks w) : Derives Fits (.members es) (s ++ w) := by
  cases h with
  | firstMember hv => exact .firstMember (hv.member_blanks hw)
  | nextMember h hv =>
    rw [List.append_assoc]
    exact .nextMember h (hv.member_blanks hw)

end Derived

/-! ## Places in a text -/

/-- The bracket that opens a frame. -/
def Frame.bracket : Frame → Char
  | array _ => '['
  | object _ _ => '\x7b'

/-- The text behind the bracket of a frame, up to the end of an item. -/
inductive Filled : Frame → List Char → Prop where
  | array {vs : List Value} {s : List Char} (h : Derives IsShort (.elements vs) s) :
      Filled (.array vs.reverse) s
  | object {es : List (Scalar × Value)} {s : List Char} (key : Text)
      (h : Derives IsShort (.members es) s) :
      Filled (.object (es.foldl (fun es (k, v) => Value.setEntry es k v) []) key) s

/-- The text behind the bracket of a frame, up to a place where an item comes next. -/
inductive Awaits : Frame → List Char → Prop where
  | firstItem {w : List Char} (hw : IsBlanks w) : Awaits (.array []) w
  | firstEntry {w : List Char} (key : Text) (hw : IsBlanks w) : Awaits (.object [] key) w
  | next {frame : Frame} {s w : List Char} (h : Filled frame s) (hw : IsBlanks w) :
      Awaits frame (s ++ ',' :: w)

/-- The text up to a place where a value comes next, inside of the frames. -/
inductive Context : List Frame → List Char → Prop where
  | root {w : List Char} (hw : IsBlanks w) : Context [] w
  | item {stack : List Frame} {items : List Value} {p q : List Char} (h : Context stack p)
      (hq : Awaits (.array items) q) : Context (.array items :: stack) (p ++ '[' :: q)
  | entry {stack : List Frame} {entries : List (Scalar × Value)} {key last : Text}
      {p q k a b : List Char} (h : Context stack p) (hq : Awaits (.object entries last) q)
      (hk : SpellsText key k) (ha : IsBlanks a) (hb : IsBlanks b) :
      Context (.object entries key :: stack) (p ++ '\x7b' :: (q ++ (k ++ (a ++ ':' :: b))))

/-- The text up to a place where the machine is in a given state. -/
inductive Reached : State → List Char → Prop where
  | value {stack : List Frame} {p : List Char} (h : Context stack p) : Reached ⟨stack, .value⟩ p
  | valueOrEnd {stack : List Frame} {p w : List Char} (h : Context stack p) (hw : IsBlanks w) :
      Reached ⟨.array [] :: stack, .valueOrEnd⟩ (p ++ '[' :: w)
  | key {stack : List Frame} {entries : List (Scalar × Value)} {last : Text} {p q w : List Char}
      (h : Context stack p) (hq : Filled (.object entries last) q) (hw : IsBlanks w) :
      Reached ⟨.object entries last :: stack, .key⟩ (p ++ '\x7b' :: (q ++ ',' :: w))
  | keyOrEnd {stack : List Frame} {last : Text} {p w : List Char} (h : Context stack p)
      (hw : IsBlanks w) : Reached ⟨.object [] last :: stack, .keyOrEnd⟩ (p ++ '\x7b' :: w)
  | colon {stack : List Frame} {entries : List (Scalar × Value)} {key last : Text}
      {p q k a : List Char} (h : Context stack p) (hq : Awaits (.object entries last) q)
      (hk : SpellsText key k) (ha : IsBlanks a) :
      Reached ⟨.object entries key :: stack, .colon⟩ (p ++ '\x7b' :: (q ++ (k ++ a)))
  | commaOrEnd {stack : List Frame} {frame : Frame} {p q : List Char} (h : Context stack p)
      (hq : Filled frame q) : Reached ⟨frame :: stack, .commaOrEnd⟩ (p ++ frame.bracket :: q)
  | nothing {v : Value} {p : List Char} (h : Derives IsShort (.element v) p) :
      Reached ⟨[], .nothing v⟩ p

/-! ### White space behind a place -/

section Blanks

variable {w : List Char} (hw : IsBlanks w)

include hw

theorem Filled.blanks {frame : Frame} {q : List Char} (h : Filled frame q) :
    Filled frame (q ++ w) := by
  cases h with
  | array h => exact .array (h.elements_blanks hw)
  | object key h => exact .object key (h.members_blanks hw)

theorem Awaits.blanks {frame : Frame} {q : List Char} (h : Awaits frame q) :
    Awaits frame (q ++ w) := by
  cases h with
  | firstItem hq => exact .firstItem (hq.append hw)
  | firstEntry key hq => exact .firstEntry key (hq.append hw)
  | next h hq =>
    rw [List.append_assoc]
    exact .next h (hq.append hw)

theorem Context.blanks {stack : List Frame} {p : List Char} (h : Context stack p) :
    Context stack (p ++ w) := by
  cases h with
  | root hp => exact .root (hp.append hw)
  | item h hq =>
    rw [List.append_assoc]
    exact .item h (hq.blanks hw)
  | entry h hq hk ha hb =>
    simp only [List.append_assoc, List.cons_append]
    exact .entry h hq hk ha (hb.append hw)

theorem Reached.blanks {st : State} {p : List Char} (h : Reached st p) : Reached st (p ++ w) := by
  cases h with
  | value h => exact .value (h.blanks hw)
  | valueOrEnd h hq =>
    rw [List.append_assoc]
    exact .valueOrEnd h (hq.append hw)
  | key h hq hb =>
    simp only [List.append_assoc, List.cons_append]
    exact .key h hq (hb.append hw)
  | keyOrEnd h hq =>
    rw [List.append_assoc]
    exact .keyOrEnd h (hq.append hw)
  | colon h hq hk ha =>
    simp only [List.append_assoc, List.cons_append]
    exact .colon h hq hk (ha.append hw)
  | commaOrEnd h hq =>
    rw [List.append_assoc]
    exact .commaOrEnd h (hq.blanks hw)
  | nothing h => exact .nothing (h.element_blanks hw)

end Blanks

/-! ## Steps -/

section Steps

variable {stack : List Frame} {st st' : State} {p w : List Char} {t : Token} {start : Text}

theorem Awaits.item {items : List Value} {q : List Char} {v : Value}
    (h : Awaits (.array items) q) (hv : Derives IsShort (.value v) w) :
    Filled (.array (v :: items)) (q ++ w) := by
  cases h with
  | firstItem hq => exact @Filled.array [v] _ (.firstElement (.element_of_value hq hv))
  | next h hq =>
    cases h with
    | array h =>
      -- the frame holds the latest item first
      have hnext := Filled.array (.nextElement h (.element_of_value hq hv))
      rw [List.reverse_append] at hnext
      rw [List.append_assoc]
      exact hnext

theorem Awaits.entry {entries : List (Scalar × Value)} {key last : Text} {q k a b : List Char}
    {v : Value} (h : Awaits (.object entries last) q) (hk : SpellsText key k) (ha : IsBlanks a)
    (hb : IsBlanks b) (hv : Derives IsShort (.value v) w) :
    Filled (.object (Value.setEntry entries (.text key) v) key)
      (q ++ (k ++ (a ++ ':' :: (b ++ w)))) := by
  have hmember {c : List Char} (hc : IsBlanks c) :
      Derives IsShort (.member key v) (c ++ (k ++ (a ++ ':' :: (b ++ w)))) :=
    .member hc hk ha (.element_of_value hb hv)
  cases h with
  | firstEntry _ hq => exact @Filled.object [(.text key, v)] _ key (.firstMember (hmember hq))
  | next h hq =>
    cases h with
    | object _ h =>
      -- entries are set in the order in which they were read
      have hnext := Filled.object key (.nextMember h (hmember hq))
      rw [List.foldl_append] at hnext
      rw [List.append_assoc]
      exact hnext

/-- A value is delivered where one comes next. -/
theorem Context.deliver {v : Value} (h : Context stack p) (hv : Derives IsShort (.value v) w) :
    Reached (State.deliver stack v) (p ++ w) := by
  cases h with
  | root hp => exact .nothing (.element_of_value hp hv)
  | item h hq =>
    rw [List.append_assoc]
    exact .commaOrEnd h (hq.item hv)
  | entry h hq hk ha hb =>
    simp only [List.append_assoc, List.cons_append]
    exact .commaOrEnd h (hq.entry hk ha hb hv)

theorem takeValue_scalar {x : Scalar} (ht : t.scalar? = some x) :
    takeValue stack ⟨.token t, start⟩ = .ok (.deliver stack (.scalar x)) := by
  cases t <;> simp only [Token.scalar?, Option.some.injEq, reduceCtorEq] at ht <;> subst ht <;> rfl

/-- A token is taken where a value comes next: it is a value, or starts one. -/
theorem Context.takeValue (h : Context stack p) (hw : SpellsToken t w)
    (hst : takeValue stack ⟨.token t, start⟩ = .ok st') : Reached st' (p ++ w) := by
  cases hw with
  | scalar ht hx =>
    rw [takeValue_scalar ht] at hst
    obtain rfl := Except.ok.inj hst
    exact h.deliver (.scalar hx)
  | @punctuation c _ hc =>
    have hopened {frame : Frame} {e : Expected} (hframe : Reached ⟨frame :: stack, e⟩ (p ++ [c]))
        (hst : State.opened stack frame e = .ok st') : Reached st' (p ++ [c]) := by
      rw [State.opened] at hst
      split at hst
      · obtain rfl := Except.ok.inj hst
        exact hframe
      · cases hst
    -- only the two opening brackets are taken here
    have hmem := mem_loneTokens hc
    simp only [loneTokens, List.mem_cons, Prod.mk.injEq, List.not_mem_nil, or_false] at hmem
    rcases hmem with ⟨rfl, rfl⟩ | ⟨rfl, rfl⟩ | ⟨rfl, rfl⟩ | ⟨rfl, rfl⟩ | ⟨rfl, rfl⟩ | ⟨rfl, rfl⟩
    · exact hopened (.valueOrEnd h isBlanks_nil) hst
    · cases hst
    · exact hopened (.keyOrEnd h isBlanks_nil) hst
    · cases hst
    · cases hst
    · cases hst

/-- A key is taken where one comes next. -/
theorem Awaits.takeKey {entries : List (Scalar × Value)} {last : Text} {q : List Char}
    (h : Context stack p) (hq : Awaits (.object entries last) q) (hw : SpellsToken t w)
    (hst : takeKey (.object entries last :: stack) ⟨.token t, start⟩ = .ok st') :
    Reached st' (p ++ '\x7b' :: (q ++ w)) := by
  unfold Json.takeKey at hst
  split at hst
  · next ht hstack =>
    obtain ⟨hframe, rfl⟩ := List.cons.inj hstack
    obtain ⟨rfl, -⟩ := Frame.object.inj hframe
    obtain rfl := Lexeme.token.inj ht
    obtain rfl := Except.ok.inj hst
    have hcolon := Reached.colon h hq hw.text isBlanks_nil
    rwa [List.append_nil] at hcolon
  · cases hst
  · cases hst

theorem Filled.closeArray {items : List Value} {q : List Char} (h : Context stack p)
    (hq : Filled (.array items) q) :
    Reached (State.deliver stack (.array items.reverse)) (p ++ '[' :: (q ++ [']'])) := by
  cases hq with
  | array hvs =>
    rw [List.reverse_reverse]
    exact h.deliver (.array hvs)

theorem Filled.closeObject {entries : List (Scalar × Value)} {last : Text} {q : List Char}
    (h : Context stack p) (hq : Filled (.object entries last) q) :
    Reached (State.deliver stack (.dict entries)) (p ++ '\x7b' :: (q ++ ['\x7d'])) := by
  cases hq with
  | object _ hes => exact h.deliver (.object hes)

/-- Behind an item, a comma leads to the next one, and a bracket closes the frame. -/
theorem Filled.step {frame : Frame} {q : List Char} (h : Context stack p) (hq : Filled frame q)
    (hw : SpellsToken t w)
    (hst : State.step ⟨frame :: stack, .commaOrEnd⟩ ⟨.token t, start⟩ = .ok st') :
    Reached st' (p ++ frame.bracket :: (q ++ w)) := by
  unfold State.step at hst
  dsimp only at hst
  split at hst
  -- a comma, in an array or in an object
  · next ht hstack =>
    obtain rfl := Lexeme.token.inj ht
    obtain ⟨rfl, rfl⟩ := List.cons.inj hstack
    obtain rfl := Except.ok.inj hst
    rw [@SpellsToken.eq_singleton ',' _ _ hw rfl]
    exact .value (.item h (.next hq isBlanks_nil))
  · next ht hstack =>
    obtain rfl := Lexeme.token.inj ht
    obtain ⟨rfl, rfl⟩ := List.cons.inj hstack
    obtain rfl := Except.ok.inj hst
    rw [@SpellsToken.eq_singleton ',' _ _ hw rfl]
    exact .key h hq isBlanks_nil
  -- the end of the one or of the other
  · next ht hstack =>
    obtain rfl := Lexeme.token.inj ht
    obtain ⟨rfl, rfl⟩ := List.cons.inj hstack
    obtain rfl := Except.ok.inj hst
    rw [@SpellsToken.eq_singleton ']' _ _ hw rfl]
    exact hq.closeArray h
  · next ht hstack =>
    obtain rfl := Lexeme.token.inj ht
    obtain ⟨rfl, rfl⟩ := List.cons.inj hstack
    obtain rfl := Except.ok.inj hst
    rw [@SpellsToken.eq_singleton '\x7d' _ _ hw rfl]
    exact hq.closeObject h
  · cases hst

/-- A step takes the machine to where the text goes on. -/
theorem Reached.step (h : Reached st p) (hw : SpellsToken t w)
    (hst : st.step ⟨.token t, start⟩ = .ok st') : Reached st' (p ++ w) := by
  cases h with
  | value h => exact h.takeValue hw hst
  | valueOrEnd h ha =>
    unfold State.step at hst
    dsimp only at hst
    split at hst
    · next ht hstack =>
      obtain rfl := Lexeme.token.inj ht
      obtain ⟨hframe, rfl⟩ := List.cons.inj hstack
      obtain rfl := Frame.array.inj hframe
      obtain rfl := Except.ok.inj hst
      rw [@SpellsToken.eq_singleton ']' _ _ hw rfl, List.append_assoc]
      exact h.deliver (.emptyArray ha)
    -- no bracket closes the array, so this is its first item
    · exact Context.takeValue (.item h (.firstItem ha)) hw hst
  | key h hq ha =>
    rw [List.append_assoc]
    exact Awaits.takeKey h (.next hq ha) hw hst
  | keyOrEnd h ha =>
    rw [List.append_assoc]
    unfold State.step at hst
    dsimp only at hst
    split at hst
    · next ht hstack =>
      obtain rfl := Lexeme.token.inj ht
      obtain ⟨hframe, rfl⟩ := List.cons.inj hstack
      obtain ⟨rfl, -⟩ := Frame.object.inj hframe
      obtain rfl := Except.ok.inj hst
      rw [@SpellsToken.eq_singleton '\x7d' _ _ hw rfl]
      exact h.deliver (.emptyObject ha)
    · exact Awaits.takeKey h (.firstEntry _ ha) hw hst
  | colon h hq hk ha =>
    unfold State.step at hst
    dsimp only at hst
    split at hst
    · next ht =>
      obtain rfl := Lexeme.token.inj ht
      obtain rfl := Except.ok.inj hst
      rw [@SpellsToken.eq_singleton ':' _ _ hw rfl]
      simp only [List.append_assoc, List.cons_append]
      -- the colon ends the key and its blanks
      exact .value (.entry h hq hk ha isBlanks_nil)
    · cases hst
  | commaOrEnd h hq =>
    rw [List.append_assoc]
    exact hq.step h hw hst
  | nothing h => cases hst

end Steps

/-! ## Runs -/

/-- Where the text ends, it is an element. -/
theorem Reached.finish {st : State} {p : List Char} {v : Value} (h : Reached st p)
    (hv : st.finish = .ok v) : Derives IsShort (.element v) p := by
  cases h with
  | nothing h =>
    obtain rfl := Except.ok.inj hv
    exact h
  | _ => cases hv

/-- A run that ends with a value has taken an element. -/
theorem Reached.runText {st : State} {p s : List Char} {v : Value} (h : Reached st p)
    (hv : st.runText (Text.ofChars s) = .ok v) : Derives IsShort (.element v) (p ++ s) := by
  induction scans s generalizing st p with
  | finish ha =>
    rw [st.runText_finish ha] at hv
    exact (h.blanks ha).finish hv
  | stuck ha hc hnot =>
    rw [st.runText_blanks ha] at hv
    obtain ⟨e, -, he⟩ := @run_stuck st _ _ _ hc hnot
    cases he.symm.trans hv
  | token ha hw htake _ ih =>
    rw [st.runText_blanks ha, st.runText_token hw htake] at hv
    obtain ⟨st', hst, hv⟩ := exists_of_bind_eq_ok hv
    have hderives := ih ((h.blanks ha).step hw hst) hv
    rwa [List.append_assoc, List.append_assoc] at hderives

/-- A text that is read is an element. -/
theorem derives_of_readText {s : List Char} {v : Value}
    (h : readText (Text.ofChars s) = .ok v) : Derives IsShort (.element v) s := by
  rw [readText] at h
  split at h
  · next hrun =>
    obtain rfl := Except.ok.inj h
    exact Reached.runText (.value (.root isBlanks_nil)) hrun
  all_goals cases h

end PropertyList.Json
