/-
  PropertyList.Proofs.Conversion.Through

  Going through a binary list.  What can be rendered as one can be converted from it as
  well as from what it was rendered of: every encoding takes both or refuses both, and
  writes them alike.  Only the zeros of a document may change on the way, if there are
  both in it: the list keeps the first of them.
-/
import PropertyList.Proofs.Binary.Zeros
import PropertyList.Proofs.Conversion.Rendered
import PropertyList.Proofs.Rereadable

namespace PropertyList

variable {g : Graph} {v : Value} {e : Encoding} {bytes : List UInt8}

/-! ## What the list holds -/

namespace Binary

variable {sortKeys : Bool}

theorem expresses_of_write (hv : g.Holds g.root v) (hdepth : v.depth < numberingBudget)
    (hwrite : write g sortKeys = .ok bytes) : Encoding.binary.Expresses sortKeys v := by
  have hdecides := decides_write sortKeys hv hdepth
  rw [hwrite] at hdecides
  exact hdecides.isOk_iff.mp rfl

/-- The list that was written of a document is read as the tree as it was listed, with one zero for
    all, and written again as it is. -/
theorem exists_reread (hg : g.IsRereadable) (hv : g.Holds g.root v) (hdepth : v.depth < 320)
    (hkeys : HasTextKeys v) (hwrite : write g sortKeys = .ok bytes)
    (hlen : bytes.length < 0x8000000000000000) :
    ∃ g', read bytes = .ok g' ∧ write g' sortKeys = .ok bytes ∧
      g'.Holds g'.root ((v.mergeZeros sortKeys).arranged sortKeys) := by
  have hdeep : read bytes ≠ .error .tooDeep := by
    intro hread
    obtain ⟨objects, rs, hwritten⟩ := exists_written hwrite
    have hle := hwritten.le_depth hkeys hv hlen hread
    omega
  obtain ⟨objects, rs, hstored⟩ := exists_stored_of_reread hg.wellKeyed hg.reread hwrite hdeep
  obtain ⟨nodes, hread, hfaithful, hfilled⟩ := hstored.read hlen
  refine ⟨graphOf nodes 0, hread, hstored.write_reread hfaithful hfilled, ?_⟩
  have hsign := hstored.toRecords.zeroSign hstored.number hv hkeys
  rw [Value.mergeZeros, Value.arranged_mapScalars]
  exact holds_graphOf hfaithful (hstored.toRecords.holds_image_root hsign hkeys hv) hfilled

end Binary

/-! ## Writing it on -/

section

variable {options : WriteOptions}

/-- XML and JSON are written alike of a tree and of the tree as it is listed. -/
theorem Encoding.writeGraph_of_holds_arranged (he : e ≠ .binary) (hkeys : v.IsTextKeyed)
    (hg : g.Holds g.root (v.arranged options.sortKeys)) :
    e.writeGraph options g = e.writeGraph options (.ofValue v) := by
  have hvalue : (Graph.ofValue v).value = v := Graph.value_ofValue hkeys
  cases e with
  | binary => exact absurd rfl he
  | xml => rw [writeGraph, writeGraph, hg.value_eq, hvalue, Xml.write_arranged hkeys]
  | json => rw [writeGraph, writeGraph, hg.value_eq, hvalue, Json.write_arranged hkeys]

/-- XML and JSON only see the tree of a graph. -/
theorem Encoding.writeGraph_of_value_eq {g' : Graph} (he : e ≠ .binary) (h : g.value = g'.value) :
    e.writeGraph options g = e.writeGraph options g' := by
  cases e with
  | binary => exact absurd rfl he
  | xml => rw [writeGraph, writeGraph, h]
  | json => rw [writeGraph, writeGraph, h]

/-- Nothing that a binary list can express escapes. -/
theorem Escapes.not_expresses {c : FailureClass} (h : Escapes e v c) {sortKeys : Bool} :
    ¬ Encoding.binary.Expresses sortKeys v := by
  intro hexpresses
  obtain ⟨-, hforms⟩ := Binary.expresses_iff.mp hexpresses
  cases h with
  | text ht hnot => exact hnot (hforms _ ht)
  | int _ hn hlong =>
    obtain ⟨hlow, hhigh⟩ := hforms _ hn
    rw [Xml.isPrintable_of_stored hlow hhigh] at hlong
    cases hlong
  | @uid _ n hn hlong =>
    have hlt : n < 0x10000000000000000 := hforms _ hn
    rw [Xml.isPrintable_of_stored (by omega) (by omega)] at hlong
    cases hlong

/-- What a binary list can express is written in any encoding, or does not match its format. -/
theorem decides_writeGraph_of_binary (e : Encoding) (hv : g.Holds g.root v) (hdepth : v.depth ≤ 250)
    (hexpresses : Encoding.binary.Expresses options.sortKeys v) :
    Decides (e.Expresses options.sortKeys v) (fun f => f.failureClass = .format)
      (e.writeGraph options g) := by
  apply (decides_writeGraph e options hv hdepth).mono
  intro f hf
  apply hf.resolve_right
  intro hescapes
  exact hescapes.not_expresses hexpresses

/-- How the output stage ends, by what comes of writing. -/
def Stage.ofResult : Except WriteFailure (List UInt8) → Stage
  | .ok _ => .success
  | .error f => .ofFailure f.failureClass

/-- Writing ends alike where the same decides about it, if it only fails as a mismatch of the
    format. -/
theorem Stage.ofResult_congr {P : Prop} {result result' : Except WriteFailure (List UInt8)}
    (h : Decides P (fun f => f.failureClass = .format) result)
    (h' : Decides P (fun f => f.failureClass = .format) result') :
    ofResult result = ofResult result' := by
  cases h with
  | ok hP =>
    cases h' with
    | ok => rfl
    | error hnot => exact absurd hP hnot
  | error hnot hf =>
    cases h' with
    | ok hP => exact absurd hP hnot
    | error _ hf' => rw [ofResult, ofResult, hf, hf']

/-- What is read of the list that was written of a document is written on like the document: it can
    be written in the same encodings, and as the same bytes, but for zeros of both signs. -/
theorem exists_writeGraph_eq (hg : g.IsRereadable) (hv : g.Holds g.root v) (hdepth : v.depth ≤ 250)
    (hwrite : Binary.write g options.sortKeys = .ok bytes)
    (hlen : bytes.length < 0x8000000000000000) :
    ∃ g', Binary.read bytes = .ok g' ∧ ∀ e : Encoding,
      Stage.ofResult (e.writeGraph options g') = Stage.ofResult (e.writeGraph options g) ∧
      (e = .binary ∨ ¬ v.HasBothZeros → e.writeGraph options g' = e.writeGraph options g) ∧
      (e ≠ .binary → e.writeGraph options g' =
        e.writeGraph options (.ofValue (v.mergeZeros options.sortKeys))) := by
  have hexpresses := Binary.expresses_of_write hv (Nat.lt_of_le_of_lt hdepth (by decide)) hwrite
  have hkeys := (Binary.expresses_iff.mp hexpresses).1
  obtain ⟨g', hread, hrewrite, hholds⟩ :=
    Binary.exists_reread hg hv (by omega) hkeys hwrite hlen
  refine ⟨g', hread, fun e => ?_⟩
  by_cases he : e = .binary
  · subst he
    have hsame : Encoding.binary.writeGraph options g' = Encoding.binary.writeGraph options g := by
      rw [Encoding.writeGraph, Encoding.writeGraph, hrewrite, hwrite]
    rw [hsame]
    exact ⟨rfl, fun _ => rfl, fun hne => absurd rfl hne⟩
  have htext := hg.wellKeyed.isTextKeyed hv hkeys
  have hmerged : (v.mergeZeros options.sortKeys).IsTextKeyed := htext.mapScalars fun _ _ => trivial
  rw [Encoding.writeGraph_of_holds_arranged he hmerged hholds]
  refine ⟨?_, fun hzeros => ?_, fun _ => rfl⟩
  -- a tree can be expressed with one zero exactly if it can be with both
  · have hdepth' : (v.mergeZeros options.sortKeys).depth ≤ 250 :=
      Nat.le_trans (htext.depth_mapScalars_le _) hdepth
    have hmergedExpresses : Encoding.binary.Expresses options.sortKeys
        (v.mergeZeros options.sortKeys) := Encoding.expresses_mergeZeros.mpr hexpresses
    have hdecides := decides_writeGraph_of_binary e hv hdepth hexpresses
    have hdecides' := decides_writeGraph_of_binary e (Graph.holds_ofValue hmerged) hdepth'
      hmergedExpresses
    exact Stage.ofResult_congr (hdecides'.congr Encoding.expresses_mergeZeros) hdecides
  · have hvalue : (Graph.ofValue v).value = g.value :=
      (Graph.value_ofValue htext).trans hv.value_eq.symm
    rw [Value.mergeZeros_eq_self _ hv.isTree (hzeros.resolve_left he)]
    exact Encoding.writeGraph_of_value_eq he hvalue

end

/-! ## Conversions -/

section

variable {settings : Settings} {payload : Payload} {source : Selector}

/-- What writing comes to decides how a conversion ends whose payload was read. -/
theorem outcome_of_read (hread : readRecognized payload.bytes = .ok ⟨source, some g⟩) :
    (convert settings payload (.only e)).outcome =
      ⟨.success, .ofResult (e.writeGraph settings.writeOptions g)⟩ := by
  have hdocument : e.write settings.writeOptions ⟨source, some g⟩ =
      e.writeGraph settings.writeOptions g := rfl
  cases hwrite : e.writeGraph settings.writeOptions g with
  | ok bytes => simp only [convert, chooseEncodings, hread, hdocument, hwrite, Stage.ofResult]
  | error f => simp only [convert, chooseEncodings, hread, hdocument, hwrite, Stage.ofResult]

theorem rendered_of_read (hread : readRecognized payload.bytes = .ok ⟨source, some g⟩) :
    (convert settings payload (.only e)).rendered =
      (e.writeGraph settings.writeOptions g).toOption.map fun bytes => ⟨bytes, e⟩ := by
  have hdocument : e.write settings.writeOptions ⟨source, some g⟩ =
      e.writeGraph settings.writeOptions g := rfl
  cases hwrite : e.writeGraph settings.writeOptions g with
  | ok bytes =>
    simp only [convert, chooseEncodings, hread, hdocument, hwrite]
    rfl
  | error f =>
    simp only [convert, chooseEncodings, hread, hdocument, hwrite]
    rfl

end

/-- A document that is rendered as a binary list is converted from there as it is converted
    directly.  In each encoding both end in the same way, and what is rendered is the same, if the
    encoding is that of binary lists or the zeros of the document do not have both signs.  Otherwise
    the first zero, as the document is listed, stands in the place of all of them. -/
theorem convert_through_binary {settings : Settings} {payload : Payload} {source : Selector}
    {x : Rendered} (hread : readRecognized payload.bytes = .ok ⟨source, some g⟩)
    (hv : g.Holds g.root v) (hdepth : v.depth ≤ 250)
    (hx : (convert settings payload (.only .binary)).rendered = some x)
    (hlen : x.bytes.length < 0x8000000000000000) (name : String) (e : Encoding) :
    let direct := convert settings payload (.only e)
    let through := convert settings ⟨x.bytes, name⟩ (.only e)
    through.outcome = direct.outcome ∧
    (e = .binary ∨ ¬ v.HasBothZeros → through.rendered = direct.rendered) ∧
    (e ≠ .binary → through.rendered.map (·.bytes) =
      (e.writeGraph settings.writeOptions
        (.ofValue (v.mergeZeros settings.sortKeys))).toOption) := by
  -- the list was written of the document that was read
  obtain ⟨d, g', hd, hg', hencoding, hwrite⟩ := exists_of_rendered hx
  obtain rfl := Except.ok.inj (hread.symm.trans hd)
  obtain rfl := Option.some.inj hg'
  rw [hencoding] at hwrite
  have hbytes : Binary.write g settings.writeOptions.sortKeys = .ok x.bytes :=
    eq_ok_of_mapError hwrite
  obtain ⟨g', hreread, hwrites⟩ :=
    exists_writeGraph_eq (isRereadable_of_readRecognized hread) hv hdepth hbytes hlen
  obtain ⟨hstage, hsame, hmerged⟩ := hwrites e
  have hheader := Binary.hasHeader_of_write hbytes
  have hrecognized : recognize? x.bytes = some .binary := if_pos hheader
  have hread' : readRecognized (Payload.mk x.bytes name).bytes =
      .ok ⟨.only .binary, some g'⟩ := by
    simp only [readRecognized, hrecognized]
    exact Encoding.binary_read_of_ok hheader hreread
  refine ⟨?_, fun hzeros => ?_, fun he => ?_⟩
  · rw [outcome_of_read hread, outcome_of_read hread', hstage]
  · rw [rendered_of_read hread, rendered_of_read hread', hsame hzeros]
  · rw [rendered_of_read hread', hmerged he, Option.map_map]
    exact Option.map_id'

/-- A list with null, which XML cannot express, and with a zero below zero. -/
theorem convert_through_binary_null :
    ∃ payload x, payload.bytes = "[null,-0.0,1.5]".toUTF8.toList ∧
      (convert {} payload (.only .binary)).rendered = some x ∧
      (convert {} ⟨x.bytes, Settings.standardStream⟩ (.only .xml)).outcome =
        ⟨.success, .formatMismatch⟩ ∧
      (convert {} ⟨x.bytes, Settings.standardStream⟩ (.only .json)).rendered.map (·.bytes) =
        some payload.bytes := by
  let payload : Payload := { bytes := "[null,-0.0,1.5]".toUTF8.toList }
  let v : Value := .array [.null, .real (.ofMagnitude true 0), .real ⟨0x3FF8000000000000⟩]
  have hv : (Graph.ofValue v).Holds (Graph.ofValue v).root v := by
    refine Graph.holds_ofValue (P := fun _ => True) (K := fun _ => True) (.array fun w hw => ?_)
    simp only [List.mem_cons, List.not_mem_nil, or_false] at hw
    rcases hw with rfl | rfl | rfl <;> exact .scalar trivial
  have hone : ¬ v.HasBothZeros := by
    rintro ⟨hzero, -⟩
    obtain ⟨w, hw, hzero⟩ := Value.mentions_array_iff.mp hzero
    simp only [List.mem_cons, List.not_mem_nil, or_false] at hw
    rcases hw with rfl | rfl | rfl <;> cases Value.mentions_scalar_iff.mp hzero
  have hgraph : (readRecognized payload.bytes).toOption.bind Document.graph =
      some (.ofValue v) := by decide +kernel
  have hlength : (convert {} payload (.only .binary)).rendered.map (·.bytes.length) = some 67 := by
    decide +kernel
  obtain ⟨x, hx, hlen⟩ := Option.map_eq_some_iff.mp hlength
  obtain ⟨⟨source, graph⟩, g, hd, rfl, -⟩ := exists_of_rendered hx
  have hread : readRecognized payload.bytes = .ok ⟨source, some g⟩ := hd
  rw [hread] at hgraph
  obtain rfl : g = .ofValue v := Option.some.inj hgraph
  have hthrough := convert_through_binary hread hv (by decide) hx (by rw [hlen]; decide)
    Settings.standardStream
  obtain ⟨hxml, -, -⟩ := hthrough .xml
  obtain ⟨-, hjson, -⟩ := hthrough .json
  have hdirect : (convert {} payload (.only .json)).rendered.map (·.bytes) = some payload.bytes := by
    decide +kernel
  refine ⟨payload, x, rfl, hx, hxml.trans (by decide +kernel), ?_⟩
  rw [hjson (.inr hone)]
  exact hdirect

/-- Zeros of both signs in a list, which become one on the way. -/
theorem convert_through_binary_zeros :
    ∃ payload x, payload.bytes = "[0.0,-0.0]".toUTF8.toList ∧
      (convert {} payload (.only .binary)).rendered = some x ∧
      (convert {} ⟨x.bytes, Settings.standardStream⟩ (.only .json)).rendered ≠
        (convert {} payload (.only .json)).rendered ∧
      (convert {} ⟨x.bytes, Settings.standardStream⟩ (.only .json)).rendered.map (·.bytes) =
        some "[0.0,0.0]".toUTF8.toList ∧
      (convert {} payload (.only .json)).rendered.map (·.bytes) =
        some "[0.0,-0.0]".toUTF8.toList := by
  let payload : Payload := { bytes := "[0.0,-0.0]".toUTF8.toList }
  have hchain : ((convert {} payload (.only .binary)).rendered.bind fun x =>
      (convert {} ⟨x.bytes, Settings.standardStream⟩ (.only .json)).rendered).map (·.bytes) =
        some "[0.0,0.0]".toUTF8.toList := by decide +kernel
  have hdirect : (convert {} payload (.only .json)).rendered.map (·.bytes) =
      some "[0.0,-0.0]".toUTF8.toList := by decide +kernel
  obtain ⟨x, hx⟩ : ∃ x, (convert {} payload (.only .binary)).rendered = some x :=
    Option.isSome_iff_exists.mp (by decide +kernel)
  rw [hx, Option.bind_some] at hchain
  refine ⟨payload, x, rfl, hx, fun heq => ?_, hchain, hdirect⟩
  rw [heq, hdirect] at hchain
  revert hchain
  decide +kernel

end PropertyList
