/-
  PropertyList.Proofs.Recognition

  What is written shows its encoding: a binary list has its header, XML starts
  with its declaration, and the JSON text of a container with a bracket or brace.
-/
import PropertyList.Proofs.Binary.RoundTrip
import PropertyList.Proofs.Json.RoundTrip
import PropertyList.Proofs.LeadingBytes
import PropertyList.Proofs.Xml.RoundTrip

namespace PropertyList

/-- A tree with a list or a dictionary at its root. -/
def Value.IsContainer : Value → Prop
  | .array _ => True
  | .dict _ => True
  | .scalar _ => False
  | .back _ => False

/-- A first byte that shows an encoding belongs to no mark, blank or header. -/
theorem recognize?_of_first {bytes : List UInt8} {e : Encoding} (h : ofFirstByte? bytes = some e) :
    recognize? bytes = some e := by
  -- no blanks and no mark are dropped in front of such a byte
  have hkeep {b : UInt8} {rest : List UInt8} (hblank : isLeadingBlank b = false)
      (hmark : b ≠ 0xEF) : dropMark (dropLeadingBlanks (b :: rest)) = b :: rest := by
    rw [dropLeadingBlanks, List.dropWhile_cons_of_neg (by simp [hblank]), dropMark]
    intro r hr
    exact hmark (List.cons.inj hr).1
  unfold ofFirstByte? at h
  split at h
  · obtain rfl := Option.some.inj h
    rw [recognize?, hkeep (by decide) (by decide)]
    rfl
  · obtain rfl := Option.some.inj h
    rw [recognize?, hkeep (by decide) (by decide)]
    rfl
  · obtain rfl := Option.some.inj h
    rw [recognize?, hkeep (by decide) (by decide)]
    rfl
  · cases h

/-- A first byte that shows nothing: no blank, and not the start of a header, a mark or a
    document. -/
theorem recognize?_eq_none {b : UInt8} (hblank : isLeadingBlank b = false)
    (hb : b ∉ [0x62, 0xFF, 0xFE, 0xEF, 0x3C, 0x7B, 0x5B]) (rest : List UInt8) :
    recognize? (b :: rest) = none := by
  simp only [List.mem_cons, List.not_mem_nil, or_false, not_or] at hb
  obtain ⟨hheader, hlittle, hbig, hmark, hxml, hbrace, hbracket⟩ := hb
  have hkept : dropMark (dropLeadingBlanks (b :: rest)) = b :: rest := by
    rw [dropLeadingBlanks, List.dropWhile_cons_of_neg (by simp [hblank]), dropMark]
    intro r hr
    exact hmark (List.cons.inj hr).1
  have hfirst : ofFirstByte? (b :: rest) = none := by
    unfold ofFirstByte?
    split
    · next h => exact absurd (List.cons.inj h).1 hxml
    · next h => exact absurd (List.cons.inj h).1 hbrace
    · next h => exact absurd (List.cons.inj h).1 hbracket
    · rfl
  rw [recognize?_of_text (isBinary_cons_of_ne hheader rest) (hasWideMark_cons_of_ne hlittle hbig rest),
    hkept, hfirst]

/-- XML is recognized by its declaration. -/
theorem Xml.recognize?_write {sortKeys : Bool} {v : Value} {bytes : List UInt8}
    (h : write sortKeys v = .ok bytes) : recognize? bytes = some .xml := by
  cases hls : lines sortKeys 0 v with
  | error f =>
    rw [write, hls] at h
    cases h
  | ok ls =>
    rw [write, hls] at h
    obtain rfl := Except.ok.inj h
    have hdeclaration : declaration = '<' :: declaration.tail := rfl
    rw [render_eq, hdeclaration, List.cons_append]
    apply recognize?_of_first
    rfl

namespace Json

/-- The first token of a container. -/
def IsOpening (t : Token) : Prop := t = .beginArray ∨ t = .beginObject

/-- The text of tokens starts with the bracket or brace in front of them. -/
theorem ofFirstByte?_render {t : Token} (ht : IsOpening t) (layout : Layout) (ts : List Token)
    {cs : List Char} (h : layout.render (t :: ts) = Text.ofChars cs) :
    ofFirstByte? (Utf8.encodeChars cs) = some .json := by
  -- both layouts write the first token without anything in front of it
  have hfirst : ∃ s, layout.render (t :: ts) = .scalar '[' :: s ∨
      layout.render (t :: ts) = .scalar '\x7b' :: s := by
    cases layout with
    | compact =>
      rcases ht with rfl | rfl
      · exact ⟨_, .inl rfl⟩
      · exact ⟨_, .inr rfl⟩
    | pretty =>
      rcases ht with rfl | rfl
      · cases ts with
        | nil => exact ⟨_, .inl rfl⟩
        | cons u ts => cases u <;> exact ⟨_, .inl rfl⟩
      · cases ts with
        | nil => exact ⟨_, .inr rfl⟩
        | cons u ts => cases u <;> exact ⟨_, .inr rfl⟩
  obtain ⟨s, hs⟩ := hfirst
  rw [h] at hs
  cases cs with
  | nil => rcases hs with hs | hs <;> cases hs
  | cons c cs =>
    rcases hs with hs | hs
    · obtain rfl := CodePoint.scalar.inj (List.cons.inj hs).1
      rfl
    · obtain rfl := CodePoint.scalar.inj (List.cons.inj hs).1
      rfl

/-- The tokens of a container start with its bracket or brace. -/
theorem exists_tokens_eq_cons {sortKeys : Bool} {v : Value} {depth : Nat} {ts : List Token}
    (hv : v.IsContainer) (h : tokens sortKeys depth v = .ok ts) :
    ∃ t rest, IsOpening t ∧ ts = t :: rest := by
  cases v with
  | scalar s => exact hv.elim
  | back k => exact hv.elim
  | array items =>
    rw [tokens] at h
    split_ifs at h
    obtain ⟨tss, -, rfl⟩ := exists_of_map_eq_ok h
    exact ⟨_, _, .inl rfl, rfl⟩
  | dict entries =>
    rw [tokens] at h
    split_ifs at h
    obtain ⟨listed, -, h⟩ := exists_of_bind_eq_ok h
    obtain ⟨members, -, h⟩ := exists_of_bind_eq_ok h
    obtain rfl := Except.ok.inj h
    exact ⟨_, _, .inr rfl, rfl⟩

/-- The JSON text of a container is recognized by its first byte. -/
theorem recognize?_write {layout : Layout} {sortKeys : Bool} {v : Value} {bytes : List UInt8}
    (hv : v.IsContainer) (h : write layout sortKeys v = .ok bytes) :
    recognize? bytes = some .json := by
  obtain ⟨ts, cs, hts, hrender, rfl⟩ := exists_of_write h
  obtain ⟨t, rest, ht, rfl⟩ := exists_tokens_eq_cons hv hts
  apply recognize?_of_first
  exact ofFirstByte?_render ht layout rest hrender

end Json

end PropertyList
