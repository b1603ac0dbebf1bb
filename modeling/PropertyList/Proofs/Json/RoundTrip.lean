/-
  PropertyList.Proofs.Json.RoundTrip

  From the tokens of a tree to bytes and back.  Bytes without a mark are taken
  for UTF-8 as there are no zeros among the first of them.
-/
import PropertyList.Codec
import PropertyList.Proofs.Graph.OfValue
import PropertyList.Proofs.Json.Faults

namespace PropertyList

namespace Json

/-! ## The encoding of text -/

/-- What starts with a mark is no UTF-8, or starts with zero or the mark of UTF-8. -/
theorem next?_mark {m : List UInt8 × (List UInt8 → Option Text)} (hm : m ∈ marks)
    {s s' : List UInt8} {c : Char} (h : Utf8.next? (m.1 ++ s) = some (.scalar c, s')) :
    c = '\x00' ∨ c = '\uFEFF' := by
  simp only [marks, List.mem_cons, List.not_mem_nil, or_false] at hm
  rcases hm with rfl | rfl | rfl | rfl | rfl
  · exact .inl (CodePoint.scalar.inj (Prod.mk.inj (Option.some.inj h)).1).symm
  · cases h
  · cases h
  · cases h
  · have hbytes : Utf8.encode (.scalar '\uFEFF') = [0xEF, 0xBB, 0xBF] := by decide
    rw [← hbytes, Utf8.next?_encode] at h
    exact .inr (CodePoint.scalar.inj (Prod.mk.inj (Option.some.inj h)).1).symm

/-- Bytes are taken for UTF-8, if there is no mark and no zero among the first two. -/
theorem decodeUnmarked?_of_ne {bytes : List UInt8} (h : ∀ b ∈ bytes.take 2, b ≠ 0) :
    decodeUnmarked? bytes = decode? Utf8.next? bytes := by
  unfold decodeUnmarked?
  split
  · rw [if_neg (h _ List.mem_cons_self), if_neg (h _ (.tail _ List.mem_cons_self))]
  · rw [if_neg (h _ List.mem_cons_self), if_neg (h _ (.tail _ List.mem_cons_self))]
  · rfl

/-- The bytes of characters are taken for UTF-8, if the first one is no mark and neither of the
    first two is numbered zero. -/
theorem decodeText?_encodeChars {cs : List Char} (hzero : '\x00' ∉ cs.take 2)
    (hmark : cs.head? ≠ some '\uFEFF') :
    decodeText? (Utf8.encodeChars cs) = some (Text.ofChars cs) := by
  cases cs with
  | nil => rfl
  | cons c cs =>
  have hunmarked : (marks.find? fun m => m.1.isPrefixOf (Utf8.encodeChars (c :: cs))) = none := by
    rw [List.find?_eq_none]
    intro m hm hprefix
    obtain ⟨t, ht⟩ := List.isPrefixOf_iff_prefix.mp hprefix
    -- what is read off the front is the first character
    have hnext : Utf8.next? (m.1 ++ t) = some (.scalar c, Utf8.encodeChars cs) := by
      rw [ht]
      exact Utf8.next?_encode (.scalar c) (Utf8.encodeChars cs)
    rcases next?_mark hm hnext with rfl | rfl
    · exact hzero List.mem_cons_self
    · exact hmark rfl
  rw [decodeText?, hunmarked, ← Utf8.decode?_encodeChars]
  exact decodeUnmarked?_of_ne (Utf8.ne_zero_of_mem_take_encodeChars hzero)

/-! ## Documents -/

/-- A token that can be encoded is written without the character numbered zero. -/
theorem isWritten_toText {t : Token} (h : t.toText.IsEncodable) : ∀ c ∈ t.toText, IsWritten c := by
  cases t with
  | text t =>
    obtain ⟨cs, rfl⟩ := isEncodable_quoted.mp h
    exact isWritten_quoted cs
  | int n => exact isWritten_decimal n
  | real x => exact isWritten_real x
  | bool b =>
    cases b with
    | false => exact @isWritten_ofChars "false".toList (forall_of_all (by decide))
    | true => exact @isWritten_ofChars "true".toList (forall_of_all (by decide))
  | null => exact @isWritten_ofChars "null".toList (forall_of_all (by decide))
  | _ => exact isWritten_char (by decide)

/-- The lexemes of a document are its tokens, if these are read as a value. -/
theorem lexemes_of_delivers {ts : List Token} {v : Value} {s : Text} {levels : Nat}
    (h : Delivers ts v levels) (hs : Spaced ts s) :
    (lexemes (s.length + 1) [] s).map Located.lexeme = ts.map .token := by
  have hchain : ts.IsChain Token.Apart := by
    have hfits := h.fits [] .nil (by rintro t ⟨⟩)
    rwa [List.append_nil] at hfits
  obtain ⟨ls, hls, htokens⟩ := exists_lexemes hs h.exact hchain [] (s.length + 1)
    (Nat.lt_succ_of_le (hs.length_le h.exact))
  rw [hls]
  exact htokens

/-- A document of tokens that are read as a value is read as that value. -/
theorem readText_of_delivers {ts : List Token} {v : Value} {s : Text} {levels : Nat}
    (h : Delivers ts v levels) (hs : Spaced ts s) (hdepth : levels ≤ depthLimit) :
    readText s = .ok v := by
  have hrun := h.runs [] .value (.inr rfl) (by rw [List.length_nil, Nat.zero_add]; exact hdepth)
    _ [] (lexemes_of_delivers h hs)
  rw [List.append_nil] at hrun
  rw [readText, hrun]
  rfl

/-- What is written is the text of tokens, which has no surrogates. -/
theorem exists_of_write {layout : Layout} {sortKeys : Bool} {v : Value} {bytes : List UInt8}
    (h : write layout sortKeys v = .ok bytes) :
    ∃ ts cs, tokens sortKeys 0 v = .ok ts ∧ layout.render ts = Text.ofChars cs ∧
      bytes = Utf8.encodeChars cs := by
  obtain ⟨s, htext, h⟩ := exists_of_bind_eq_ok h
  obtain ⟨ts, hts, rfl⟩ := exists_of_map_eq_ok htext
  generalize hs : layout.render ts = s at h
  cases hcs : s.chars? with
  | none =>
    rw [Utf8.encodeText?, hcs] at h
    cases h
  | some cs =>
    rw [Utf8.encodeText?, hcs] at h
    refine ⟨ts, cs, hts, ?_, (Except.ok.inj h).symm⟩
    rw [hs]
    exact Text.chars?_eq_some hcs

/-- Whatever is written is the text of tokens, and is taken for that text when it is read. -/
theorem exists_text_of_write {layout : Layout} {sortKeys : Bool} {v : Value} {bytes : List UInt8}
    (h : write layout sortKeys v = .ok bytes) :
    ∃ ts w, tokens sortKeys 0 v = .ok ts ∧ ReadAs sortKeys v.depth ts v w ∧
      decodeText? bytes = some (layout.render ts) := by
  obtain ⟨ts, cs, hts, hcs, rfl⟩ := exists_of_write h
  obtain ⟨w, hread⟩ := exists_delivers hts
  have hspaced := spaced_render layout ts
  have hhead := hspaced.head_lt hread.1.exact
  -- what has been encoded has no surrogates, and so none of its tokens has
  have hwritten : ∀ c ∈ layout.render ts, IsWritten c := hspaced.isWritten fun t ht =>
    isWritten_toText (hspaced.isEncodable_iff.mp ⟨cs, hcs⟩ t ht)
  refine ⟨ts, w, hts, hread, ?_⟩
  rw [hcs] at hhead hwritten ⊢
  refine decodeText?_encodeChars ?_ ?_
  · intro hzero
    obtain ⟨d, hd, hpos⟩ := hwritten _ (List.mem_map_of_mem (List.mem_of_mem_take hzero))
    rw [← CodePoint.scalar.inj hd] at hpos
    exact absurd hpos (by decide)
  · cases cs with
    | nil => rintro ⟨⟩
    | cons c cs =>
      rintro ⟨⟩
      exact absurd (hhead _ rfl) (by decide)

/-- Whatever is written is read, and as the tree that was written if all its keys are texts. -/
theorem exists_read_of_write {layout : Layout} {sortKeys : Bool} {v : Value} {bytes : List UInt8}
    (h : write layout sortKeys v = .ok bytes) :
    ∃ w, read bytes = .ok w ∧ (v.IsTextKeyed → w = v.arranged sortKeys) := by
  have hdecides := decides_write layout sortKeys v
  rw [h] at hdecides
  obtain ⟨-, hdepth⟩ := hdecides.isOk_iff.mp rfl
  obtain ⟨ts, w, -, ⟨hdelivers, hsame⟩, htext⟩ := exists_text_of_write h
  refine ⟨w, ?_, hsame⟩
  rw [read, htext]
  -- the reader allows for as many levels as the writer
  exact readText_of_delivers hdelivers (spaced_render layout ts) hdepth

/-- The scalars that JSON can express and keeps as they are, with integers within the limit of
    digits. -/
def IsExpressible : Scalar → Prop
  | .null => True
  | .bool _ => True
  | .int n => Integer.isPrintable n = true
  | .text t => t.IsEncodable
  | .real _ => False
  | .data _ => False
  | .date _ => False
  | .uid _ => False

theorem hasForm_of_isExpressible {s : Scalar} (h : IsExpressible s) : Encoding.json.HasForm s := by
  cases s with
  | int n => exact h
  | text t => exact h
  | real x => exact h.elim
  | data bytes => exact h.elim
  | date t => exact h.elim
  | uid n => exact h.elim
  | _ => trivial

/-- A tree that JSON can express is written, in both layouts, and read as it was. -/
theorem exists_write {v : Value} (hv : v.Over IsExpressible (TextKeys Text.IsEncodable))
    (hdepth : v.depth ≤ writeDepth) (layout : Layout) (sortKeys : Bool) :
    ∃ bytes, write layout sortKeys v = .ok bytes ∧ read bytes = .ok (v.arranged sortKeys) := by
  have hexpresses : Encoding.json.Expresses sortKeys v := by
    refine hv.mono (fun _ => hasForm_of_isExpressible) fun keys hkeys => ⟨fun k hk => ?_,
      fun _ _ => .inl rfl, fun _ => Scalar.orderable_of_text fun k => hkeys.isText⟩
    obtain ⟨t, rfl, ht⟩ := hkeys.text k hk
    exact ht
  obtain ⟨bytes, hwrite⟩ := (decides_write layout sortKeys v).exists_ok ⟨hexpresses, hdepth⟩
  obtain ⟨w, hread, hsame⟩ := exists_read_of_write hwrite
  rw [hsame hv.isTextKeyed] at hread
  exact ⟨bytes, hwrite, hread⟩

end Json

namespace Encoding

theorem json_write_of_ok {g : Graph} {options : WriteOptions} {source : Selector}
    {bytes : List UInt8} (h : Json.write options.layout options.sortKeys g.value = .ok bytes) :
    json.write options ⟨source, some g⟩ = .ok bytes := by
  show (Json.write options.layout options.sortKeys g.value).mapError _ = _
  rw [h]
  rfl

theorem json_read_of_ok {bytes : List UInt8} {v : Value} (h : Json.read bytes = .ok v) :
    json.read bytes = .ok ⟨.only .json, some (.ofValue v)⟩ := by
  rw [read]
  simp only [h]

/-- A tree that JSON can express is written in both layouts, and both are read as the same document,
    which holds the tree as it is listed. -/
theorem json_roundTrip (v : Value) (hv : v.Over Json.IsExpressible (TextKeys Text.IsEncodable))
    (hdepth : v.depth ≤ 250) (sortKeys : Bool) (source : Selector) :
    ∃ g : Graph, g.value = v.arranged sortKeys ∧ ∀ layout : Json.Layout, ∃ bytes,
      json.write { sortKeys, layout } ⟨source, some (.ofValue v)⟩ = .ok bytes ∧
      json.read bytes = .ok ⟨.only .json, some g⟩ := by
  have hlimit : 250 ≤ Json.writeDepth := by decide
  have harranged : (v.arranged sortKeys).Over Json.IsExpressible (TextKeys Text.IsEncodable) :=
    hv.arranged sortKeys fun _ _ hperm hkeys => hkeys.perm hperm
  refine ⟨_, Graph.value_ofValue harranged, fun layout => ?_⟩
  obtain ⟨bytes, hwrite, hread⟩ :=
    Json.exists_write hv (Nat.le_trans hdepth hlimit) layout sortKeys
  refine ⟨bytes, json_write_of_ok ?_, json_read_of_ok hread⟩
  rw [Graph.value_ofValue hv]
  exact hwrite

/-- Escapes, empty containers and a large integer, with the entries sorted. -/
theorem json_roundTrip_sorted :
    ∃ g : Graph, g.value = .dict [
        (.text (Text.ofString "a"), .array [.array [], .null, .bool true, .int 10000000000000000000000000000000000000000]),
        (.text (Text.ofString "b"), .text (Text.ofString "\"\\\n\x01é\x7f😀"))] ∧
      ∀ layout : Json.Layout, ∃ bytes,
        json.write { sortKeys := true, layout } ⟨.auto, some (.ofValue (.dict [
          (.text (Text.ofString "b"), .text (Text.ofString "\"\\\n\x01é\x7f😀")),
          (.text (Text.ofString "a"), .array [.array [], .null, .bool true, .int 10000000000000000000000000000000000000000])]))⟩ =
            .ok bytes ∧
        json.read bytes = .ok ⟨.only .json, some g⟩ := by
  have hover : (Value.dict [
      (.text (Text.ofString "b"), .text (Text.ofString "\"\\\n\x01é\x7f😀")),
      (.text (Text.ofString "a"), .array [.array [], .null, .bool true, .int 10000000000000000000000000000000000000000])]).Over
      Json.IsExpressible (TextKeys Text.IsEncodable) := by
    refine .dict ⟨by decide, fun k hk => ?_⟩ fun e he => ?_
    · simp only [List.map_cons, List.map_nil, List.mem_cons, List.not_mem_nil, or_false] at hk
      rcases hk with rfl | rfl
      · exact ⟨_, rfl, "b".toList, rfl⟩
      · exact ⟨_, rfl, "a".toList, rfl⟩
    · simp only [List.mem_cons, List.not_mem_nil, or_false] at he
      rcases he with rfl | rfl
      · exact .scalar ⟨_, rfl⟩
      · refine .array fun w hw => ?_
        simp only [List.mem_cons, List.not_mem_nil, or_false] at hw
        rcases hw with rfl | rfl | rfl | rfl
        · exact .array (List.forall_mem_nil _)
        · exact .scalar trivial
        · exact .scalar trivial
        · exact .scalar (Integer.isPrintable_of_lt (k := 41) (by decide) (by decide +kernel))
  obtain ⟨g, hvalue, hboth⟩ := json_roundTrip _ hover (by decide) true .auto
  refine ⟨g, hvalue.trans ?_, hboth⟩
  rw [Value.arranged_dict, Value.listedEntries, if_pos rfl, Value.sortEntries,
    Text.sortBy_eq_of_perm (by decide) (.swap _ _ _), Text.sortBy_of_pairwise (by simp; decide)]
  simp [Value.sorted_array, Value.sorted_scalar]

end Encoding

end PropertyList
