/-
  PropertyList.Proofs.Conversion.Rendered

  What a conversion renders, taken as input.  Binary lists, XML, and the JSON of
  a list or a dictionary show their encoding and are handed to its reader.  JSON
  with nothing but a scalar starts like no encoding, and is refused although the
  JSON reader would take it.
-/
import PropertyList.Proofs.Binary.Fixpoint
import PropertyList.Proofs.Conversion.Outcome
import PropertyList.Proofs.Conversion.Refusal
import PropertyList.Proofs.Recognition

namespace PropertyList

/-! ## First bytes of scalars -/

namespace Json

/-- The characters that the text of a scalar starts with. -/
def IsScalarStart (c : Char) : Prop := c.isDigit = true ∨ c ∈ ['-', '"', 'n', 't', 'f']

theorem StartsNumber.isScalarStart {s : List Char} (h : StartsNumber s) :
    ∃ c t, s = c :: t ∧ IsScalarStart c := by
  obtain ⟨c, t, rfl, rfl | hc⟩ := h.exists_cons
  · exact ⟨_, t, rfl, .inr List.mem_cons_self⟩
  · exact ⟨c, t, rfl, .inl hc⟩

/-- The text of the token of a scalar starts with one of these characters. -/
theorem exists_toText_of_scalarToken {s : Scalar} {t : Token} (h : scalarToken s = .ok t) :
    prettyFrom 0 [t] = [t.toText] ∧ ∃ c rest, t.toText = .scalar c :: rest ∧ IsScalarStart c := by
  cases s with
  | null =>
    obtain rfl := Except.ok.inj h
    exact ⟨rfl, 'n', _, rfl, .inr (by decide)⟩
  | bool b =>
    obtain rfl := Except.ok.inj h
    cases b with
    | false => exact ⟨rfl, 'f', _, rfl, .inr (by decide)⟩
    | true => exact ⟨rfl, 't', _, rfl, .inr (by decide)⟩
  | int n =>
    rw [scalarToken] at h
    split_ifs at h
    obtain rfl := Except.ok.inj h
    obtain ⟨c, rest, htext, hc⟩ := (startsNumber_decimal n).isScalarStart
    exact ⟨rfl, c, Text.ofChars rest, by rw [Token.toText, htext, Text.ofChars_cons], hc⟩
  | real x =>
    rw [scalarToken] at h
    split_ifs at h with hfinite
    obtain rfl := Except.ok.inj h
    obtain ⟨c, rest, htext, hc⟩ := (startsNumber_text hfinite).isScalarStart
    exact ⟨rfl, c, Text.ofChars rest, by rw [Token.toText, htext, Text.ofChars_cons], hc⟩
  | text u =>
    obtain rfl := Except.ok.inj h
    exact ⟨rfl, '"', _, rfl, .inr (by decide)⟩
  | data bytes => cases h
  | date u => cases h
  | uid n => cases h

/-- Both layouts start a lone token without anything in front of it. -/
theorem exists_render_of_scalarToken {s : Scalar} {t : Token} (h : scalarToken s = .ok t)
    (layout : Layout) : ∃ c rest, layout.render [t] = .scalar c :: rest ∧ IsScalarStart c := by
  obtain ⟨hpretty, c, rest, htext, hc⟩ := exists_toText_of_scalarToken h
  cases layout with
  | compact =>
    refine ⟨c, rest, ?_, hc⟩
    show [t].flatMap Token.toText = _
    rw [List.flatMap_singleton, htext]
  | pretty =>
    refine ⟨c, rest ++ [.scalar '\n'], ?_, hc⟩
    show (prettyFrom 0 [t]).flatten ++ _ = _
    rw [hpretty, List.flatten_singleton, htext, List.cons_append]

theorem recognize?_of_isScalarStart {c : Char} (hc : IsScalarStart c) (cs : List Char) :
    recognize? (Utf8.encodeChars (c :: cs)) = none := by
  have hascii : c.toNat < 0x80 ∧ isLeadingBlank (UInt8.ofNat c.toNat) = false ∧
      UInt8.ofNat c.toNat ∉ [0x62, 0xFF, 0xFE, 0xEF, 0x3C, 0x7B, 0x5B] := by
    rcases hc with hc | hc
    · obtain ⟨hlow, hhigh⟩ := isDigit_iff.mp hc
      have hall : ∀ k < 10, 0x30 + k < 0x80 ∧ isLeadingBlank (UInt8.ofNat (0x30 + k)) = false ∧
          UInt8.ofNat (0x30 + k) ∉ [0x62, 0xFF, 0xFE, 0xEF, 0x3C, 0x7B, 0x5B] := by decide
      have hdigit := hall (c.toNat - 0x30) (by omega)
      rwa [Nat.add_sub_cancel' hlow] at hdigit
    · simp only [List.mem_cons, List.not_mem_nil, or_false] at hc
      rcases hc with rfl | rfl | rfl | rfl | rfl <;> decide
  have hcons : Utf8.encodeChars (c :: cs) = UInt8.ofNat c.toNat :: Utf8.encodeChars cs := by
    rw [Utf8.encodeChars, List.flatMap_cons, Utf8.encodeNat, if_pos hascii.1]
    rfl
  rw [hcons]
  exact recognize?_eq_none hascii.2.1 hascii.2.2 _

/-- The JSON of a tree that is no container starts like no encoding. -/
theorem recognize?_write_of_scalar {layout : Layout} {sortKeys : Bool} {v : Value}
    {bytes : List UInt8} (hv : ¬ v.IsContainer) (h : write layout sortKeys v = .ok bytes) :
    recognize? bytes = none := by
  obtain ⟨ts, cs, hts, hrender, rfl⟩ := exists_of_write h
  cases v with
  | array items => exact absurd trivial hv
  | dict entries => exact absurd trivial hv
  | back k =>
    rw [tokens] at hts
    cases hts
  | scalar s =>
    rw [tokens] at hts
    obtain ⟨t, ht, rfl⟩ := exists_of_map_eq_ok hts
    obtain ⟨c, rest, hfirst, hc⟩ := exists_render_of_scalarToken ht layout
    rw [hrender] at hfirst
    cases cs with
    | nil => cases hfirst
    | cons d cs =>
      obtain rfl := CodePoint.scalar.inj (List.cons.inj hfirst).1
      exact recognize?_of_isScalarStart hc cs

end Json

/-! ## What is rendered -/

section

variable {settings : Settings} {payload : Payload} {selector : Selector} {x : Rendered}

/-- What is rendered was written in the encoding that was chosen, of a document that was read. -/
theorem exists_of_rendered (h : (convert settings payload selector).rendered = some x) :
    ∃ d g, (chooseEncodings payload.bytes selector).1 payload.bytes = .ok d ∧ d.graph = some g ∧
      x.encoding = (chooseEncodings payload.bytes selector).2.1 ∧
      x.encoding.writeGraph settings.writeOptions g = .ok x.bytes := by
  rw [convert] at h
  generalize chooseEncodings payload.bytes selector = chosen at h ⊢
  obtain ⟨read, target, messages⟩ := chosen
  cases hread : read payload.bytes with
  | error f =>
    simp only [hread] at h
    cases h
  | ok d =>
    cases hwrite : target.write settings.writeOptions d with
    | error f =>
      simp only [hread, hwrite] at h
      cases h
    | ok bytes =>
      simp only [hread, hwrite] at h
      obtain rfl := Option.some.inj h
      -- a document that has been released is not written
      cases hg : d.graph with
      | none =>
        rw [Encoding.write, hg] at hwrite
        cases hwrite
      | some g =>
        rw [Encoding.write, hg] at hwrite
        exact ⟨d, g, hread, hg, rfl, hwrite⟩

/-- What an encoding writes is recognized as that encoding, except for a scalar in JSON. -/
theorem recognize?_writeGraph {e : Encoding} {options : WriteOptions} {g : Graph}
    {bytes : List UInt8} (h : e.writeGraph options g = .ok bytes)
    (hroot : e = .json → g.value.IsContainer) : recognize? bytes = some e := by
  cases e with
  | binary => exact if_pos (Binary.hasHeader_of_write (eq_ok_of_mapError h))
  | xml => exact Xml.recognize?_write (eq_ok_of_mapError h)
  | json => exact Json.recognize?_write (hroot rfl) (eq_ok_of_mapError h)

/-- Bytes that show no encoding are refused where an encoding is asked for. -/
theorem outcome_of_unrecognized {bytes : List UInt8} (h : recognize? bytes = none)
    (settings : Settings) (source : String) (e : Encoding) :
    (convert settings ⟨bytes, source⟩ (.only e)).outcome = ⟨.formatMismatch, .notAttempted⟩ := by
  have hread : readRecognized bytes = .error .unrecognized := by
    rw [readRecognized, h]
  simp only [convert, chooseEncodings, hread]
  rfl

end

/-- What is rendered is recognized as the encoding that it was written in, and handed to the reader
    of that encoding, unless it is the JSON of a document that is neither a list nor a dictionary.
    JSON is always read by its own reader, and so JSON with a list or a dictionary is accepted as
    input wherever an encoding is asked for; but JSON with nothing but a scalar shows no encoding,
    and every such conversion of it is refused. -/
theorem recognize?_rendered {settings : Settings} {payload : Payload} {selector : Selector}
    {x : Rendered} (h : (convert settings payload selector).rendered = some x) :
    x.encoding = (chooseEncodings payload.bytes selector).2.1 ∧
    ∃ d g, (chooseEncodings payload.bytes selector).1 payload.bytes = .ok d ∧ d.graph = some g ∧
      ((x.encoding = .json → g.value.IsContainer) →
        recognize? x.bytes = some x.encoding ∧
        readRecognized x.bytes = x.encoding.read x.bytes) ∧
      (x.encoding = .json → ∃ v,
        Encoding.json.read x.bytes = .ok ⟨.only .json, some (.ofValue v)⟩ ∧
        ∀ (settings' : Settings) (source : String) (e : Encoding),
          (g.value.IsContainer →
            (convert settings' ⟨x.bytes, source⟩ (.only e)).outcome.input = .success) ∧
          (¬ g.value.IsContainer → recognize? x.bytes = none ∧
            (convert settings' ⟨x.bytes, source⟩ (.only e)).outcome =
              ⟨.formatMismatch, .notAttempted⟩)) := by
  obtain ⟨d, g, hread, hg, htarget, hwrite⟩ := exists_of_rendered h
  refine ⟨htarget, d, g, hread, hg, fun hroot => ?_, fun hjson => ?_⟩
  · have hrecognized := recognize?_writeGraph hwrite hroot
    exact ⟨hrecognized, by rw [readRecognized, hrecognized]⟩
  · rw [hjson] at hwrite
    have hbytes := eq_ok_of_mapError hwrite
    obtain ⟨v, hv, -⟩ := Json.exists_read_of_write hbytes
    have haccepted := Encoding.json_read_of_ok hv
    refine ⟨v, haccepted, fun settings' source e => ⟨fun hroot => ?_, fun hroot => ?_⟩⟩
    · apply input_of_ok (d := ⟨.only .json, some (.ofValue v)⟩)
      show readRecognized x.bytes = _
      rw [readRecognized, Json.recognize?_write hroot hbytes]
      exact haccepted
    · have hnone := Json.recognize?_write_of_scalar hroot hbytes
      exact ⟨hnone, outcome_of_unrecognized hnone settings' source e⟩

/-- A document that is a text becomes JSON that its own reader takes and no conversion does. -/
theorem recognize?_rendered_text :
    ∃ payload x, payload.bytes = "<plist><string>a</string></plist>".toUTF8.toList ∧
      (convert {} payload (.only .json)).rendered = some x ∧ x.encoding = .json ∧
      x.bytes = "\"a\"".toUTF8.toList ∧ recognize? x.bytes = none ∧
      (∃ v, Encoding.json.read x.bytes = .ok ⟨.only .json, some (.ofValue v)⟩) ∧
      ∀ (settings : Settings) (source : String) (e : Encoding),
        (convert settings ⟨x.bytes, source⟩ (.only e)).outcome =
          ⟨.formatMismatch, .notAttempted⟩ := by
  let payload : Payload := { bytes := "<plist><string>a</string></plist>".toUTF8.toList }
  let root : Value := .text (Text.ofString "a")
  have hrendered : (convert {} payload (.only .json)).rendered.map (fun x => (x.bytes, x.encoding)) =
      some ("\"a\"".toUTF8.toList, .json) := by decide +kernel
  have hgraph : (readRecognized payload.bytes).toOption.bind Document.graph =
      some (.ofValue root) := by decide +kernel
  obtain ⟨x, hx, hfields⟩ := Option.map_eq_some_iff.mp hrendered
  obtain ⟨hbytes, hencoding⟩ := Prod.mk.inj hfields
  obtain ⟨-, d, g, hd, hg, -, hjson⟩ := recognize?_rendered hx
  have hread : readRecognized payload.bytes = .ok d := hd
  have hg' : g = .ofValue root := by
    rw [hread] at hgraph
    exact Option.some.inj (hg.symm.trans hgraph)
  subst hg'
  have hroot : ¬ (Graph.ofValue root).value.IsContainer := id
  obtain ⟨v, haccepted, hrefused⟩ := hjson hencoding
  refine ⟨payload, x, rfl, hx, hencoding, hbytes, ?_, ⟨v, haccepted⟩, fun settings source e => ?_⟩
  · exact ((hrefused {} "" .json).2 hroot).1
  · exact ((hrefused settings source e).2 hroot).2

end PropertyList
