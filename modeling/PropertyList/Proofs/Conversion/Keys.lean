/-
  PropertyList.Proofs.Conversion.Keys

  What becomes of keys that are not text.  Binary lists and XML refuse them.  JSON
  refuses them where it has no name for one of the keys of the dictionary or no order
  for them, and otherwise writes the names.  Without such keys no name occurs twice in
  an object, and different documents have different texts.
-/
import PropertyList.Proofs.Binary.Trees
import PropertyList.Proofs.Conversion.Outcome
import PropertyList.Proofs.Graph.Unfolding
import PropertyList.Proofs.Json.Names

namespace PropertyList

namespace Graph

/-- The graph is a tree for which every writer has room. -/
def IsShallow (g : Graph) : Prop := ∃ v, g.Holds g.root v ∧ v.depth ≤ 250

/-- The keys of each dictionary name different entries, and none of them has a name in JSON without
    being text. -/
structure KeepsKeys (g : Graph) : Prop where
  apart (keys : List Scalar) (h : g.ListsKeys keys) :
    keys.Pairwise fun a b => a.sameKey b = false
  kept (keys : List Scalar) (h : g.ListsKeys keys) (k : Scalar) (hk : k ∈ keys)
    (htext : k.text? = none) : ¬ Encoding.json.HasForm k

/-- Such keys are texts, if JSON can express the tree. -/
theorem KeepsKeys.isTextKeyed {g : Graph} {sortKeys : Bool} (h : g.KeepsKeys)
    (hv : Encoding.json.Expresses sortKeys g.value) : g.value.IsTextKeyed := by
  refine (g.over_listsKeys hv).mono (fun _ _ => trivial) ?_
  rintro keys ⟨hkeys, hlists⟩
  refine textKeys_of_apart (h.apart keys hlists) fun k hk => ?_
  cases htext : k.text? with
  | some t => exact ⟨k.keyText, Scalar.eq_text_keyText (by rw [htext]; rfl), trivial⟩
  | none => exact absurd (hkeys.form k hk) (h.kept keys hlists k hk htext)

end Graph

/-- The classes in which an encoding refuses a document because of a key: there is a mismatch of the
    format, if the writer does not find one container too many, or in XML an integer that is out of
    range and too long to be named, before it comes to the key. -/
inductive RefusesKey (g : Graph) : Encoding → FailureClass → Prop where
  | format {e : Encoding} : RefusesKey g e .format
  | tooDeep {e : Encoding} (h : ¬ g.IsShallow) : RefusesKey g e .general
  | number {n : Int} (h : g.value.Mentions (.int n)) (hn : Integer.isPrintable n = false) :
      RefusesKey g .xml .number

section

variable {g : Graph} {keys : List Scalar} {k : Scalar}

theorem Binary.exists_refusal (hkeys : g.ListsKeys keys) (hk : k ∈ keys) (htext : k.text? = none)
    (options : WriteOptions) : ∃ f, Encoding.binary.writeGraph options g = .error f ∧
      RefusesKey g .binary f.failureClass := by
  cases hobjects : numberAll g options.sortKeys with
  | ok objects =>
    -- all keys of what is numbered are text
    obtain ⟨i, entries, hi, hnode, rfl⟩ := hkeys
    obtain ⟨q, hq, rfl⟩ := List.mem_map.mp hk
    have hsome := (numberAll_all hobjects).isText_of_dict hi.reaches hnode q hq
    rw [htext] at hsome
    cases hsome
  | error f =>
    refine ⟨.binary (.numbering f), ?_, ?_⟩
    · rw [Encoding.writeGraph, write, hobjects]
      rfl
    cases f with
    | tooDeep =>
      refine .tooDeep ?_
      rintro ⟨v, hv, hdepth⟩
      have hbudget : v.depth < numberingBudget := Nat.lt_of_le_of_lt hdepth (by decide)
      have hdecides := decides_numberAll options.sortKeys hv hbudget
      rw [hobjects] at hdecides
      cases hdecides with
      | error _ hf => exact hf rfl
    | unorderedKeys => exact .format
    | keyNotText => exact .format

theorem Xml.exists_refusal (hkeys : g.ListsKeys keys) (hk : k ∈ keys) (htext : k.text? = none)
    (options : WriteOptions) : ∃ f, Encoding.xml.writeGraph options g = .error f ∧
      RefusesKey g .xml f.failureClass := by
  have hnot : ¬ (Encoding.xml.Expresses options.sortKeys g.value ∧
      g.value.depth ≤ writeDepth) := by
    rintro ⟨hv, -⟩
    rcases (hkeys.of_over hv).text k hk with hjson | hsome
    · cases hjson
    · rw [htext] at hsome
      cases hsome
  obtain ⟨f, hwrite, hf⟩ := (decides_write options.sortKeys g.value).exists_error hnot
  refine ⟨.xml f, by rw [Encoding.writeGraph, hwrite]; rfl, ?_⟩
  cases f with
  | tooDeep =>
    -- the limit of the writer lies above 250 levels, so the document has more than these
    refine .tooDeep ?_
    rintro ⟨v, hv, hdepth⟩
    have hroom : 250 ≤ writeDepth := by decide
    have hdeep := hf.deep rfl
    rw [hv.value_eq] at hdeep
    rcases hdeep with hback | hdeep
    · exact hback hv.isTree
    · omega
  | outOfRange n =>
    rw [WriteFailure.failureClass]
    split
    · exact .format
    · next hn => exact .number (hf.range n rfl) (Bool.eq_false_iff.mpr hn)
  | _ => exact .format

theorem Json.exists_refusal {options : WriteOptions} (hkeys : g.ListsKeys keys)
    (hnot : ¬ Encoding.json.HasKeys options.sortKeys keys) :
    ∃ f, Encoding.json.writeGraph options g = .error f ∧ RefusesKey g .json f.failureClass := by
  have hnot' : ¬ (Encoding.json.Expresses options.sortKeys g.value ∧
      g.value.depth ≤ writeDepth) := fun h => hnot (hkeys.of_over h.1)
  obtain ⟨f, hwrite, hf⟩ :=
    (decides_write options.layout options.sortKeys g.value).exists_error hnot'
  refine ⟨.json options.layout f, by rw [Encoding.writeGraph, hwrite]; rfl, ?_⟩
  cases f with
  | tooDeep =>
    refine .tooDeep ?_
    rintro ⟨v, hv, hdepth⟩
    have hroom : 250 ≤ writeDepth := by decide
    have hdeep := hf rfl
    rw [hv.value_eq] at hdeep
    omega
  | _ => exact .format

end

namespace Encoding

variable {options : WriteOptions} {g : Graph} {source : Selector}

/-- A document is written in JSON as its tree is. -/
theorem json_write_eq_ok_iff {bytes : List UInt8} :
    json.write options ⟨source, some g⟩ = .ok bytes ↔
      Json.write options.layout options.sortKeys g.value = .ok bytes :=
  ⟨eq_ok_of_mapError, json_write_of_ok⟩

theorem expresses_of_json_write {bytes : List UInt8}
    (h : json.write options ⟨source, some g⟩ = .ok bytes) :
    json.Expresses options.sortKeys g.value := by
  have hdecides := Json.decides_write options.layout options.sortKeys g.value
  rw [json_write_eq_ok_iff.mp h] at hdecides
  exact (hdecides.isOk_iff.mp rfl).1

/-- A document in which a key of a dictionary is no text is refused, in JSON if its keys have no
    names or no order there.  JSON that is written without such keys has no name twice in an object,
    and is not written of documents that differ other than in the order that was asked for.  In any
    case JSON is written as if the names were the keys. -/
theorem write_nonTextKeys (options : WriteOptions) :
    (∀ (e : Encoding) (g : Graph) (source : Selector) (keys : List Scalar), g.ListsKeys keys →
      ∀ k ∈ keys, k.text? = none → (e = .json → ¬ json.HasKeys options.sortKeys keys) →
      ∃ f, e.write options ⟨source, some g⟩ = .error f ∧ RefusesKey g e f.failureClass) ∧
    ∀ (g : Graph) (source : Selector) (bytes : List UInt8),
      json.write options ⟨source, some g⟩ = .ok bytes →
      (g.KeepsKeys → Json.hasDistinctNames bytes = true ∧
        ∀ (g' : Graph) (source' : Selector), g'.KeepsKeys →
          json.write options ⟨source', some g'⟩ = .ok bytes →
          g.value.arranged options.sortKeys = g'.value.arranged options.sortKeys) ∧
      json.write { options with sortKeys := false }
        ⟨source, some (.ofValue (Json.named options.sortKeys g.value))⟩ = .ok bytes := by
  refine ⟨?_, ?_⟩
  · intro e g source keys hkeys k hk htext hjson
    cases e with
    | binary => exact Binary.exists_refusal hkeys hk htext options
    | xml => exact Xml.exists_refusal hkeys hk htext options
    | json => exact Json.exists_refusal hkeys (hjson rfl)
  · intro g source bytes hwrite
    have htree := json_write_eq_ok_iff.mp hwrite
    refine ⟨fun hkept => ⟨?_, ?_⟩, ?_⟩
    · have hkeyed := hkept.isTextKeyed (expresses_of_json_write hwrite)
      exact Json.hasDistinctNames_of_write
        (hkeyed.mono (fun _ h => h) fun _ => Json.nodup_names) htree
    · -- both are read as what was written
      intro g' source' hkept' hwrite'
      obtain ⟨w, hread, hsame⟩ := Json.exists_read_of_write htree
      obtain ⟨w', hread', hsame'⟩ :=
        Json.exists_read_of_write (json_write_eq_ok_iff.mp hwrite')
      obtain rfl := Except.ok.inj (hread.symm.trans hread')
      exact (hsame (hkept.isTextKeyed (expresses_of_json_write hwrite))).symm.trans
        (hsame' (hkept'.isTextKeyed (expresses_of_json_write hwrite')))
    · have hnamed := Json.write_named htree
      have hdecides := Json.decides_write options.layout false (Json.named options.sortKeys g.value)
      rw [hnamed] at hdecides
      refine json_write_of_ok ?_
      rw [Graph.value_ofValue (hdecides.isOk_iff.mp rfl).1]
      exact hnamed

/-- A dictionary with the integer one for its key, read from a binary list: it is refused by two
    encodings, and JSON shows it as a dictionary whose key is text.  With both keys in one dictionary
    a name occurs twice. -/
theorem write_nonTextKeys_one :
    ∃ payload g bytes, readRecognized payload = .ok ⟨.only .binary, some g⟩ ∧
      g.ListsKeys [.int 1] ∧ bytes = "\x7b\"1\":true\x7d".toUTF8.toList ∧
      (∀ e : Encoding, e ≠ .json → ∃ f, e.write {} ⟨.only .binary, some g⟩ = .error f ∧
        f.failureClass = .format) ∧
      json.write {} ⟨.only .binary, some g⟩ = .ok bytes ∧
      json.write {} ⟨.only .binary,
        some (.ofValue (.dict [(.text (Text.ofString "1"), .bool true)]))⟩ = .ok bytes ∧
      Json.hasDistinctNames bytes = true ∧
      ∃ twice, json.write {} ⟨.auto, some (.ofValue (.dict
        [(.int 1, .bool true), (.text (Text.ofString "1"), .bool false)]))⟩ = .ok twice ∧
        Json.hasDistinctNames twice = false := by
  let payload := Binary.header ++
    [0xD1, 1, 2, 0x10, 1, 9, 8, 11, 13] ++
    [0, 0, 0, 0, 0, 0, 1, 1, 0, 0, 0, 0, 0, 0, 0, 3, 0, 0, 0, 0, 0, 0, 0, 0,
      0, 0, 0, 0, 0, 0, 0, 14]
  let g : Graph := ⟨#[.dict [(1, 2)], .scalar (.int 1), .scalar (.bool true)], 0⟩
  let text : Graph := .ofValue (.dict [(.text (Text.ofString "1"), .bool true)])
  let bytes := "\x7b\"1\":true\x7d".toUTF8.toList
  have hread : readRecognized payload = .ok ⟨.only .binary, some g⟩ := by
    have hrecognized : recognize? payload = some .binary := rfl
    have hbinary : Binary.read payload = .ok g := by decide +kernel
    rw [readRecognized, hrecognized]
    exact binary_read_of_ok (by decide) hbinary
  have hkeys : g.ListsKeys [.int 1] := ⟨0, [(1, 2)], .root, rfl, rfl⟩
  have hwrite : json.write {} ⟨.only .binary, some g⟩ = .ok bytes :=
    json_write_of_ok (by decide +kernel)
  have hnamed : Json.named false g.value = .dict [(.text (Text.ofString "1"), .bool true)] := by
    have hname : Json.name (.int 1) = Text.ofString "1" := by decide +kernel
    have hvalue : g.value = .dict [(.int 1, .bool true)] := rfl
    rw [hvalue, Json.named_dict rfl, List.map_singleton, hname, Json.named_scalar]
  have htext : json.write {} ⟨.only .binary, some text⟩ = .ok bytes := by
    have hsame := ((write_nonTextKeys {}).2 _ _ _ hwrite).2
    rwa [hnamed] at hsame
  have hkeeps : text.KeepsKeys := by
    have hone (keys : List Scalar) (h : text.ListsKeys keys) :
        keys = [.text (Text.ofString "1")] := by
      obtain ⟨i, entries, -, hnode, rfl⟩ := h
      have hnodes : text.nodes =
          #[.dict [(1, 2)], .scalar (.text (Text.ofString "1")), .scalar (.bool true)] := rfl
      have hmem := Array.mem_of_getElem? (Graph.getElem?_of_node hnode (by rintro ⟨⟩))
      obtain rfl : entries = [(1, 2)] := by simpa [hnodes] using hmem
      rfl
    refine ⟨fun keys h => ?_, fun keys h k hk hnone => ?_⟩
    · rw [hone keys h]
      exact List.pairwise_singleton _ _
    · rw [hone keys h, List.mem_singleton] at hk
      rw [hk] at hnone
      exact absurd hnone (Option.some_ne_none _)
  refine ⟨payload, g, bytes, hread, hkeys, rfl, fun e he => ?_, hwrite, htext, ?_,
    "\x7b\"1\":true,\"1\":false\x7d".toUTF8.toList, json_write_of_ok (by decide +kernel),
    by decide +kernel⟩
  · have hclass : (e.write {} ⟨.only .binary, some g⟩).mapError WriteFailure.failureClass =
        .error .format := by
      cases e with
      | json => exact absurd rfl he
      | _ => rfl
    obtain ⟨f, hf, -⟩ := (write_nonTextKeys {}).1 e g (.only .binary) _ hkeys (.int 1)
      List.mem_cons_self rfl fun h => absurd h he
    rw [hf] at hclass
    exact ⟨f, hf, Except.error.inj hclass⟩
  · exact (((write_nonTextKeys {}).2 _ _ _ htext).1 hkeeps).1

end Encoding

end PropertyList
