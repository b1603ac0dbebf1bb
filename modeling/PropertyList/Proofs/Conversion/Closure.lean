/-
  PropertyList.Proofs.Conversion.Closure

  JSON that is read can be written again, and what is written holds no word for what
  is no number.  Every real that is read is a numeral, rounded: it is never NaN, and it
  is finite if the decimal of the numeral is not too large.  The integers that are read
  can be shown, and there are no data, dates and UIDs; so all that can keep a document
  from being written is half of a surrogate pair, which an escape can name.
-/
import PropertyList.Proofs.Conversion.Limits
import PropertyList.Proofs.Json.Literal
import PropertyList.Proofs.Json.Reading
import PropertyList.Proofs.Json.Unquoted

namespace PropertyList

/-- All reals are finite. -/
def Value.HasFiniteReals (v : Value) : Prop := ∀ x, v.Mentions (.real x) → x.isFinite = true

namespace Json

variable {text : Text} {v : Value}

/-- The scalars that can stand in a text: integers that can be shown, the decimals of its numerals,
    rounded, and all that have no limit. -/
def IsScalarOf (text : Text) : Scalar → Prop
  | .int n => Integer.isPrintable n = true
  | .real x => ∃ d ∈ realLiterals text, ∃ negative, x = d.toBinary64 negative
  | .data _ => False
  | .date _ => False
  | .uid _ => False
  | _ => True

theorem gives_of_mem_lexemes {l : Located} (hl : l ∈ lexemes (text.length + 1) [] text) :
    l.lexeme.Gives (IsScalarOf text) := by
  have hread := isRead_of_mem_lexemes (List.forall_mem_nil _) l hl
  obtain ⟨lexeme, start⟩ := l
  cases lexeme with
  | token t =>
    cases t with
    | int n => exact hread
    | real x =>
      obtain ⟨d, negative, hd, hx⟩ := hread
      exact ⟨d, List.mem_filterMap.mpr ⟨_, hl, hd⟩, negative, hx⟩
    | _ => trivial
  | _ => trivial

/-- What is read is made of the scalars of its text. -/
theorem exists_isMadeOf_of_read {bytes : List UInt8} (h : read bytes = .ok v) :
    ∃ text, decodeText? bytes = some text ∧ IsMadeOf (IsScalarOf text) v := by
  obtain ⟨text, htext, hrun⟩ := exists_run_of_read h
  exact ⟨text, htext, isMadeOf_of_run (fun _ hl => gives_of_mem_lexemes hl) hrun⟩

theorem isScalarOf_of_mentions (h : IsMadeOf (IsScalarOf text) v) :
    ∀ s, v.Mentions s → IsScalarOf text s := by
  refine h.mentions (fun s hs => hs) fun keys hkeys k hk => ?_
  obtain ⟨t, rfl, -⟩ := hkeys.text k hk
  trivial

theorem isNaN_of_mentions (h : IsMadeOf (IsScalarOf text) v) {x : Binary64}
    (hx : v.Mentions (.real x)) : x.isNaN = false := by
  obtain ⟨d, -, negative, rfl⟩ := isScalarOf_of_mentions h _ hx
  exact Decimal.isNaN_toBinary64

theorem hasFiniteReals (h : IsMadeOf (IsScalarOf text) v)
    (hsmall : ∀ d ∈ realLiterals text, d.toRat < Binary64.overflowBound) : v.HasFiniteReals := by
  intro x hx
  obtain ⟨d, hd, negative, rfl⟩ := isScalarOf_of_mentions h _ hx
  exact Decimal.isFinite_toBinary64 (hsmall d hd)

/-- With reals that are finite, only surrogates have no form in JSON. -/
theorem forall_hasForm_iff (h : IsMadeOf (IsScalarOf text) v) (hfinite : v.HasFiniteReals) :
    (∀ s, v.Mentions s → Encoding.json.HasForm s) ↔ v.HasNoSurrogate := by
  have hscalar := isScalarOf_of_mentions h
  rw [Encoding.forall_hasForm_json]
  constructor
  · rintro ⟨-, -, -, -, htext, -⟩
    exact htext
  · intro htext
    exact ⟨fun bytes => hscalar (.data bytes), fun t => hscalar (.date t), fun n => hscalar (.uid n),
      hfinite, htext, fun n hn => Integer.isPrintable_iff.mp (hscalar (.int n) hn)⟩

/-- A tree is not kept from being written as JSON in any other way than as a mismatch of the
    format. -/
theorem not_escapes {c : FailureClass} : ¬ Escapes .json v c := by
  intro h
  cases h with
  | int he _ _ => exact he rfl

/-- What was read is written if it holds no surrogates. -/
theorem decides_write_ofValue (h : IsMadeOf (IsScalarOf text) v) (hfinite : v.HasFiniteReals)
    (hdepth : v.depth ≤ 250) (options : WriteOptions) (source : Selector) :
    Decides v.HasNoSurrogate (fun f => f.failureClass = .format)
      (Encoding.json.write options ⟨source, some (.ofValue v)⟩) := by
  -- texts are keys in any order, so the options are of no account
  have hwrite := decides_writeGraph .json options (Graph.holds_ofValue h) hdepth
  refine (hwrite.mono fun f hf => hf.resolve_right not_escapes).congr ?_
  exact (Encoding.expresses_iff_of_text (Binary.hasTextKeys_of_over h)).trans
    (forall_hasForm_iff h hfinite)

/-- What is written has reals that are finite alone. -/
theorem hasFiniteReals_of_write {layout : Layout} {sortKeys : Bool} {bytes : List UInt8}
    (h : write layout sortKeys v = .ok bytes) : v.HasFiniteReals := by
  have hdecides := decides_write layout sortKeys v
  rw [h] at hdecides
  have hexpresses := (hdecides.isOk_iff.mp rfl).1
  exact fun x hx => hexpresses.mentions (fun _ hs => hs) (fun _ hkeys => hkeys.form) (.real x) hx

end Json

/-- A document that is read from JSON has no reals that are NaN, and none that are infinite if all
    numerals in its text are below what is rounded to infinity.  It is then written as JSON again,
    whatever the options are, exactly if no text in it holds half of a surrogate pair, and is
    otherwise a mismatch of the format.  What is written of any document has reals that are finite
    alone, and no word for what is no number outside of its strings. -/
theorem Encoding.json_closed :
    (∀ (bytes : List UInt8) (d : Document), json.read bytes = .ok d →
      ∃ text g, Json.decodeText? bytes = some text ∧ d.graph = some g ∧
        (∀ x, g.value.Mentions (.real x) → x.isNaN = false) ∧
        ((∀ n ∈ Json.realLiterals text, n.toRat < Binary64.overflowBound) →
          g.value.HasFiniteReals) ∧
        (g.value.HasFiniteReals → g.value.depth ≤ 250 → ∀ options : WriteOptions,
          Decides g.value.HasNoSurrogate (fun f => f.failureClass = .format)
            (json.write options d))) ∧
    ∀ (options : WriteOptions) (d : Document) (bytes : List UInt8),
      json.write options d = .ok bytes →
      ∃ g cs, d.graph = some g ∧ g.value.HasFiniteReals ∧ bytes = Utf8.encodeChars cs ∧
        ∀ w ∈ ["NaN", "Infinity", "-Infinity"],
          ¬ Text.ofString w <:+: Json.unquoted .outside (Text.ofChars cs) := by
  constructor
  · intro bytes d hread
    rw [read] at hread
    split at hread
    · next v hv =>
      obtain rfl := Except.ok.inj hread
      obtain ⟨text, htext, hmade⟩ := Json.exists_isMadeOf_of_read hv
      -- a graph made of a tree holds that tree, so what is known of one is known of the other
      have hvalue : (Graph.ofValue v).value = v := Graph.value_ofValue hmade
      refine ⟨text, .ofValue v, htext, rfl, ?_⟩
      rw [hvalue]
      refine ⟨fun x hx => Json.isNaN_of_mentions hmade hx, Json.hasFiniteReals hmade, ?_⟩
      intro hfinite hdepth options
      exact Json.decides_write_ofValue hmade hfinite hdepth options (.only .json)
    · cases hread
  · intro options d bytes hwrite
    obtain ⟨source, graph⟩ := d
    cases graph with
    | none => cases hwrite
    | some g =>
      have hjson : Json.write options.layout options.sortKeys g.value = .ok bytes :=
        eq_ok_of_mapError hwrite
      obtain ⟨cs, hbytes, hwords⟩ := Json.exists_unquoted_of_write hjson
      exact ⟨g, cs, rfl, Json.hasFiniteReals_of_write hjson, hbytes, hwords⟩

theorem exists_of_bind_graph {ε : Type} {result : Except ε Document} {g : Graph}
    (h : result.toOption.bind Document.graph = some g) :
    ∃ d, result = .ok d ∧ d.graph = some g := by
  cases result with
  | ok d => exact ⟨d, rfl, h⟩
  | error f => cases h

/-- A real and a text that looks like none, which are read and written as they are. -/
theorem Encoding.json_closed_text :
    ∃ bytes d text g, bytes = "[1.5,\"NaN\"]".toUTF8.toList ∧ json.read bytes = .ok d ∧
      Json.decodeText? bytes = some text ∧ d.graph = some g ∧
      (∀ n ∈ Json.realLiterals text, n.toRat < Binary64.overflowBound) ∧
      g.value.HasFiniteReals ∧ g.value.depth ≤ 250 ∧ g.value.HasNoSurrogate ∧
      json.write {} d = .ok bytes ∧
      ∃ cs, bytes = Utf8.encodeChars cs ∧ ∀ w ∈ ["NaN", "Infinity", "-Infinity"],
        ¬ Text.ofString w <:+: Json.unquoted .outside (Text.ofChars cs) := by
  let bytes : List UInt8 := "[1.5,\"NaN\"]".toUTF8.toList
  let v : Value := .array [.real ⟨0x3FF8000000000000⟩, .text (Text.ofString "NaN")]
  have hgraph : (json.read bytes).toOption.bind Document.graph = some (.ofValue v) := by
    decide +kernel
  obtain ⟨d, hd, hgraph⟩ := exists_of_bind_graph hgraph
  obtain ⟨hread, hwrite⟩ := json_closed
  obtain ⟨text, g, htext, hg, -, hfinite, hdecides⟩ := hread bytes d hd
  obtain rfl : g = .ofValue v := Option.some.inj (hg.symm.trans hgraph)
  have hliterals : (Json.decodeText? bytes).map Json.realLiterals = some [⟨15, -1⟩] := by
    decide +kernel
  rw [htext] at hliterals
  have hsmall : ∀ n ∈ Json.realLiterals text, n.toRat < Binary64.overflowBound := by
    rw [Option.some.inj hliterals]
    exact List.forall_mem_singleton.mpr (by decide +kernel)
  have hdepth : (Graph.ofValue v).value.depth ≤ 250 := by decide +kernel
  have hbytes : json.write {} d = .ok bytes := by
    rw [write, hg]
    decide +kernel
  have hdecides := hdecides (hfinite hsmall) hdepth {}
  rw [hbytes] at hdecides
  obtain ⟨-, cs, -, -, hcs, hwords⟩ := hwrite {} d bytes hbytes
  exact ⟨bytes, d, text, _, rfl, hd, htext, hg, hsmall, hfinite hsmall, hdepth,
    hdecides.isOk_iff.mp rfl, hbytes, cs, hcs, hwords⟩

/-- Half of a surrogate pair is read and cannot be written, and a numeral can be too large to be
    finite. -/
theorem Encoding.json_not_closed :
    (∃ bytes d g f, bytes = "[\"\\ud800\"]".toUTF8.toList ∧ json.read bytes = .ok d ∧
      d.graph = some g ∧ g.value.depth ≤ 250 ∧ json.write {} d = .error f ∧
      f.failureClass = .format) ∧
    ∃ bytes d g x, bytes = "[1e400]".toUTF8.toList ∧ json.read bytes = .ok d ∧
      d.graph = some g ∧ g.value.depth ≤ 250 ∧ g.value.Mentions (.real x) ∧
      x.isFinite = false := by
  constructor
  · let v : Value := .array [.text [.surrogate 0]]
    have hgraph : (json.read "[\"\\ud800\"]".toUTF8.toList).toOption.bind Document.graph =
        some (.ofValue v) := by decide +kernel
    obtain ⟨d, hd, hg⟩ := exists_of_bind_graph hgraph
    refine ⟨_, d, _, .json .compact .surrogate, rfl, hd, hg, by decide +kernel, ?_, rfl⟩
    rw [write, hg]
    decide +kernel
  · let x : Binary64 := .ofMagnitude false Binary64.infinityMagnitude
    have hgraph : (json.read "[1e400]".toUTF8.toList).toOption.bind Document.graph =
        some (.ofValue (.array [.real x])) := by decide +kernel
    obtain ⟨d, hd, hg⟩ := exists_of_bind_graph hgraph
    have hvalue : (Graph.ofValue (.array [.real x])).value = .array [.real x] :=
      Graph.value_ofValue (P := fun _ => True) (K := fun _ => True)
        (.array (List.forall_mem_singleton.mpr (.scalar trivial)))
    refine ⟨_, d, _, x, rfl, hd, hg, ?_⟩
    rw [hvalue]
    exact ⟨by decide, .item List.mem_cons_self (.scalar _), by decide +kernel⟩

end PropertyList
