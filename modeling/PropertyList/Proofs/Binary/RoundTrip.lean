/-
  PropertyList.Proofs.Binary.RoundTrip

  A storable tree can be written as a binary list, and reading the list gives the
  same tree.  Between the two stands the image of the graph: its nodes are the
  records that were written, and the reader finds exactly these.
-/
import PropertyList.Codec
import PropertyList.Proofs.Binary.Layout
import PropertyList.Proofs.Binary.Reading
import PropertyList.Proofs.Graph.OfValue

namespace PropertyList

namespace Binary

variable {g : Graph} {sortKeys : Bool} {objects : Numbering} {rs : List Record}

/-! ## What has been read -/

/-- The graph of the nodes that have been read. -/
def graphOf (nodes : Nodes) (root : Nat) : Graph :=
  ⟨nodes.map fun x => x.getD (.scalar .null), root⟩

theorem getElem?_graphOf {nodes : Nodes} {root i : Nat} {x : Node} (h : nodes[i]? = some (some x)) :
    (graphOf nodes root).nodes[i]? = some x := by
  rw [graphOf, Array.getElem?_map, h]
  rfl

/-- When nothing is open any more, what has been read holds the trees of the image. -/
theorem holds_graphOf {img : Graph} {nodes : Nodes} {root i : Nat} {v : Value}
    (h : Faithful img [] nodes) (hv : img.Holds i v) (hi : nodes.Filled i) :
    (graphOf nodes root).Holds i v := by
  -- what was filled is a node of the image, and its parts have been filled, too
  have hnode {j : Nat} {x : Node} (hj : nodes.Filled j) (hx : img.nodes[j]? = some x) :
      (graphOf nodes root).nodes[j]? = some x ∧ ∀ p ∈ x.parts, nodes.Filled p := by
    obtain ⟨y, hy⟩ := hj
    obtain ⟨hget, hparts⟩ := (h.closed j y hy).resolve_left List.not_mem_nil
    obtain rfl := Option.some.inj (hget.symm.trans hx)
    exact ⟨getElem?_graphOf hy, hparts⟩
  induction v using Value.induct generalizing i with
  | scalar s => exact Graph.holds_scalar.mpr (hnode hi (Graph.holds_scalar.mp hv)).1
  | array vs ih =>
    obtain ⟨ids, hget, hids⟩ := Graph.holds_array.mp hv
    obtain ⟨hget', hparts⟩ := hnode hi hget
    refine Graph.holds_array.mpr ⟨ids, hget', ?_⟩
    exact forall₂_imp_of_mem hids fun p v hp hmem hpv => ih v hmem hpv (hparts p hp)
  | dict es ih =>
    obtain ⟨ids, hget, hids⟩ := Graph.holds_dict.mp hv
    obtain ⟨hget', hparts⟩ := hnode hi hget
    have hfilled : ∀ p ∈ ids, nodes.Filled p.1 ∧ nodes.Filled p.2 :=
      Node.forall_parts_dict.mp hparts
    refine Graph.holds_dict.mpr ⟨ids, hget', ?_⟩
    exact forall₂_imp_of_mem hids fun p e hp hmem hpe =>
      ⟨(hnode (hfilled p hp).1 hpe.1).1, ih e hmem hpe.2 (hfilled p hp).2⟩
  | back k => exact absurd hv Graph.not_holds_back

/-! ## Reading what was written -/

theorem length_le_length_flatten {bs : List (List UInt8)} {b : List UInt8} (h : b ∈ bs) :
    b.length ≤ bs.flatten.length := by
  induction bs with
  | nil => cases h
  | cons a bs ih =>
    rw [List.flatten_cons, List.length_append]
    rcases List.mem_cons.mp h with rfl | h
    · exact Nat.le_add_right _ _
    · exact Nat.le_trans (ih h) (Nat.le_add_left _ _)

/-- The objects of a binary list are what is read of given records. -/
def Rereads (src : Source) (rs : List Record) : Prop :=
  ∀ (j : Nat) (r : Record), rs[j]? = some r → src.record? j = r.reread?

/-- Where all records are read as they were written, their image is what the list holds. -/
theorem Rereads.matches {src : Source} (h : Rereads src rs)
    (hrs : ∀ s, .scalar s ∈ rs → s.reread? = some s) : Matches src (imageOf rs) := by
  intro j x hx
  rw [imageOf, List.getElem?_toArray, List.getElem?_map, Option.map_eq_some_iff] at hx
  obtain ⟨r, hr, rfl⟩ := hx
  refine ⟨r, ?_, rfl⟩
  rw [h j r hr, Record.reread?_of_scalar]
  rintro s rfl
  exact hrs s (List.mem_of_getElem? hr)

/-- The reader finds the records that were written. -/
theorem exists_source (h : Records g sortKeys objects rs) {bs : List (List UInt8)}
    (hbs : List.Forall₂ (fun r b => r.encode (widthFor objects.length) = .ok b) rs bs)
    (hlen : (assemble (widthFor objects.length) bs).length < 0x8000000000000000) :
    ∃ src, Rereads src rs ∧ read (assemble (widthFor objects.length) bs) =
      (readObject src readBudget (Array.replicate rs.length none) 0).map
        fun nodes => graphOf nodes 0 := by
  have hwidth : widthFor objects.length < 256 :=
    Nat.lt_of_le_of_lt (widthFor_le_eight _) (by decide)
  have hlong := length_assemble (widthFor objects.length) bs
  have htable := length_le_length_tableOf bs
  have hcount : bs.length = objects.length := by rw [← hbs.length_eq, h.length_eq]
  -- numbers of objects fit the width of references, as it was chosen for their count
  have hfit : objects.length ≤ 256 ^ widthFor objects.length :=
    Nat.le_of_lt (lt_pow_widthFor (by omega))
  obtain ⟨src, hsrc, hread⟩ := @read_assemble _ bs hwidth (by omega)
  rw [hbs.length_eq]
  refine ⟨src, ?_, hread⟩
  intro j r hr
  obtain ⟨hj, hjr⟩ := List.getElem?_eq_some_iff.mp hr
  have hj' : j < bs.length := hbs.length_eq ▸ hj
  have hj'' : j < objects.reverse.length := h.records.length_eq ▸ hj
  -- the record at a place, its bytes and its object belong together
  have hencode : r.encode (widthFor objects.length) = .ok bs[j] := by
    rw [← hjr]
    exact (List.forall₂_iff_get.mp hbs).2 j hj hj'
  have hrecorded : Recorded g sortKeys objects objects.reverse[j].node r := by
    rw [← hjr]
    exact ((List.forall₂_iff_get.mp h.records).2 j hj'' hj).2
  have hshort : bs[j].length ≤ bs.flatten.length := length_le_length_flatten (List.getElem_mem hj')
  obtain ⟨rest, hrecord⟩ := hsrc j bs[j] (List.getElem?_eq_getElem hj')
  rw [hrecord]
  exact Record.decode?_encode (widthFor_pos _) (hrecorded.fits hfit) hencode (by omega)

/-! ## The round trip -/

/-- The nodes from which only storable scalars can be reached. -/
def HoldsStorable (g : Graph) (i : Nat) : Prop :=
  ∃ v, g.Holds i v ∧ v.Over Scalar.IsStorable (TextKeys Text.IsEncodable)

/-- The keys of a storable tree are storable. -/
theorem storable_key {keys : List Scalar} (h : TextKeys Text.IsEncodable keys) {k : Scalar}
    (hk : k ∈ keys) : k.IsStorable := by
  obtain ⟨t, rfl, ht⟩ := h.text k hk
  exact ht

theorem HoldsStorable.parts {j : Nat} {parts : List Nat} (h : HoldsStorable g j)
    (hparts : listedParts g sortKeys (g.node j) = .ok parts) :
    ∀ p ∈ parts, HoldsStorable g p := by
  obtain ⟨v, hv, hstorable⟩ := h
  intro p hp
  cases hstorable with
  | scalar hs =>
    rw [Graph.node_eq_of_getElem? (Graph.holds_scalar.mp hv)] at hparts
    obtain rfl := Except.ok.inj hparts
    cases hp
  | array hitems =>
    obtain ⟨ids, hget, hids⟩ := Graph.holds_array.mp hv
    rw [Graph.node_eq_of_getElem? hget] at hparts
    obtain rfl := Except.ok.inj hparts
    obtain ⟨w, hw, hpw⟩ := exists_of_forall₂_left hids hp
    exact ⟨w, hpw, hitems w hw⟩
  | @dict es hkeys hentries =>
    obtain ⟨ids, hget, hids⟩ := Graph.holds_dict.mp hv
    -- the keys are listed in front of all values, in the order that was asked for
    obtain ⟨ids', -, hparts', hids'⟩ :=
      listedParts_of_dict sortKeys hget hids fun k hk => hkeys.isText hk
    obtain rfl := Except.ok.inj (hparts.symm.trans hparts')
    rcases List.mem_append.mp hp with hp | hp
    · obtain ⟨q, hq, rfl⟩ := List.mem_map.mp hp
      obtain ⟨e, he, hqe⟩ := exists_of_forall₂_left hids' hq
      have hmem : e ∈ es := (Value.listedEntries_perm sortKeys es).mem_iff.mp he
      have hkey : e.1 ∈ es.map (·.1) := List.mem_map_of_mem hmem
      exact ⟨.scalar e.1, Graph.holds_scalar.mpr hqe.1, .scalar (storable_key hkeys hkey)⟩
    · obtain ⟨q, hq, rfl⟩ := List.mem_map.mp hp
      obtain ⟨e, he, hqe⟩ := exists_of_forall₂_left hids' hq
      have hmem : e ∈ es := (Value.listedEntries_perm sortKeys es).mem_iff.mp he
      exact ⟨e.2, hqe.2, hentries e hmem⟩

/-- All objects of a graph that holds a storable tree are storable. -/
theorem storable_of_mem (hroot : HoldsStorable g g.root) (h : numberAll g sortKeys = .ok objects) :
    ∀ o ∈ objects, ∀ s, g.node o.node = .scalar s → s.IsStorable := by
  intro o ho s hs
  have hreach := number_reaches (P := HoldsStorable g) (fun _ _ => HoldsStorable.parts) hroot h o ho
  obtain ⟨v, hv, hstorable⟩ := hreach.resolve_left List.not_mem_nil
  cases hstorable with
  | scalar hstorable =>
    obtain rfl := Node.scalar.inj (hs.symm.trans (Graph.node_eq_of_getElem? (Graph.holds_scalar.mp hv)))
    exact hstorable
  | array =>
    obtain ⟨ids, hget, -⟩ := Graph.holds_array.mp hv
    exact absurd (hs.symm.trans (Graph.node_eq_of_getElem? hget)) (by simp)
  | dict =>
    obtain ⟨ids, hget, -⟩ := Graph.holds_dict.mp hv
    exact absurd (hs.symm.trans (Graph.node_eq_of_getElem? hget)) (by simp)

/-- What writing and reading a storable tree come to: numbers, records and bytes, from which the
    reader gets back the image. -/
structure Stored (g : Graph) (sortKeys : Bool) (objects : Numbering) (rs : List Record)
    (bytes : List UInt8) : Prop extends Records g sortKeys objects rs where
  number : numberAll g sortKeys = .ok objects
  header : hasHeader bytes = true
  write : write g sortKeys = .ok bytes
  read : bytes.length < 0x8000000000000000 → ∃ nodes, read bytes = .ok (graphOf nodes 0) ∧
    Faithful (imageOf rs) [] nodes ∧ nodes.Filled 0

/-- A graph that holds a storable tree of at most 319 levels can be stored. -/
theorem exists_stored {v : Value} (hv : g.Holds g.root v)
    (hstorable : v.Over Scalar.IsStorable (TextKeys Text.IsEncodable)) (hdepth : v.depth < 320)
    (sortKeys : Bool) : ∃ objects rs bytes, Stored g sortKeys objects rs bytes := by
  have hkeys := hasTextKeys_of_over hstorable
  obtain ⟨objects, hobjects⟩ : ∃ objects, numberAll g sortKeys = .ok objects :=
    exists_number hkeys hv (by rw [numberingBudget]; omega) []
  obtain ⟨rs, hrs⟩ := exists_records (numberAll_all hobjects)
  have hall := storable_of_mem ⟨v, hv, hstorable⟩ hobjects
  obtain ⟨bs, hbs, hwrite⟩ := hrs.exists_write hobjects hall
  refine ⟨objects, rs, _, hrs, hobjects, hasHeader_assemble _ _, hwrite, fun hlen => ?_⟩
  obtain ⟨src, hsrc, hread⟩ := exists_source hrs hbs hlen
  rw [← size_imageOf rs] at hread
  have hmatches : Matches src (imageOf rs) := by
    refine hsrc.matches fun s hs => ?_
    obtain ⟨o, ho, hnode⟩ := hrs.exists_of_scalar hs
    exact Scalar.reread?_of_isStorable (hall o ho s hnode)
  obtain ⟨w, hw, hsame⟩ := hrs.exists_holds_root hkeys hv
  -- what the image holds is the tree as it was listed, of the same depth
  have hlisted : (v.arranged sortKeys).Over (fun _ => True) (TextKeys Text.IsEncodable) :=
    (hstorable.arranged sortKeys fun _ _ hperm h => h.perm hperm).mono (fun _ _ => trivial)
      fun _ h => h
  have hwdepth : w.depth < 320 := by
    have hle := Value.depth_arranged_le sortKeys v
    rw [hsame.depth_eq]
    omega
  have hopened : OpenContainers (imageOf rs) [] := fun i hi => absurd hi List.not_mem_nil
  have hbudget : 3 * w.depth < readBudget := by
    rw [readBudget]
    omega
  obtain ⟨nodes, hnodes, -, hfaithful, hfilled⟩ :=
    readable_of_holds hmatches (hsame.over hlisted) hw hopened hbudget _ (Faithful.start _)
  refine ⟨nodes, ?_, hfaithful, hfilled⟩
  rw [hread, hnodes]
  rfl

/-- What is read from the bytes of a storable tree is that tree, as it was listed. -/
theorem Stored.exists_read {bytes : List UInt8} (h : Stored g sortKeys objects rs bytes) {v : Value}
    (hv : g.Holds g.root v) (hkeys : HasTextKeys v) (hlen : bytes.length < 0x8000000000000000) :
    ∃ g' w, Binary.read bytes = .ok g' ∧ g'.Holds g'.root w ∧ w.Same (v.arranged sortKeys) := by
  obtain ⟨nodes, hread, hfaithful, hfilled⟩ := h.read hlen
  obtain ⟨w, hw, hsame⟩ := h.toRecords.exists_holds_root hkeys hv
  exact ⟨graphOf nodes 0, w, hread, holds_graphOf hfaithful hw hfilled, hsame⟩

end Binary

/-! ## Documents -/

namespace Encoding

theorem binary_write_of_ok {g : Graph} {options : WriteOptions} {source : Selector}
    {bytes : List UInt8} (h : Binary.write g options.sortKeys = .ok bytes) :
    binary.write options ⟨source, some g⟩ = .ok bytes := by
  show (Binary.write g options.sortKeys).mapError WriteFailure.binary = _
  rw [h]
  rfl

theorem binary_read_of_ok {bytes : List UInt8} {g : Graph} (hheader : Binary.hasHeader bytes = true)
    (h : Binary.read bytes = .ok g) : binary.read bytes = .ok ⟨.only .binary, some g⟩ := by
  have hbinary : isBinary bytes = true := hheader
  rw [read]
  simp only [if_pos hbinary, h]

theorem read_of_binary_read {bytes : List UInt8} {source : Selector} {g : Graph}
    (h : binary.read bytes = .ok ⟨source, some g⟩) : Binary.read bytes = .ok g := by
  rw [read] at h
  split at h
  · split at h
    · next g' hread =>
      obtain rfl : g' = g := Option.some.inj (congrArg Document.graph (Except.ok.inj h))
      exact hread
    · cases h
  · cases h

/-- A storable tree can be written as a binary list, with its entries as they are or sorted, and
    the list is read as a document with the same tree. -/
theorem binary_roundTrip (v : Value)
    (hv : v.Over Scalar.IsStorable (TextKeys Text.IsEncodable)) (hdepth : v.depth ≤ 250)
    (options : WriteOptions) (source : Selector) :
    ∃ bytes, binary.write options ⟨source, some (Graph.ofValue v)⟩ = .ok bytes ∧
      (bytes.length < 0x8000000000000000 → ∃ g,
        binary.read bytes = .ok ⟨.only .binary, some g⟩ ∧
        g.value.Same (v.arranged options.sortKeys)) := by
  have hholds := Graph.holds_ofValue hv
  obtain ⟨objects, rs, bytes, hstored⟩ :=
    Binary.exists_stored hholds hv (by omega) options.sortKeys
  refine ⟨bytes, ?_, fun hlen => ?_⟩
  · exact binary_write_of_ok hstored.write
  · obtain ⟨g, w, hread, hw, hsame⟩ :=
      hstored.exists_read hholds (Binary.hasTextKeys_of_over hv) hlen
    refine ⟨g, binary_read_of_ok hstored.header hread, ?_⟩
    rw [hw.value_eq]
    exact hsame

/-- Numbers that are equal but of different kinds are told apart. -/
theorem binary_roundTrip_numbers :
    ∃ bytes g, binary.write {} ⟨.auto, some (.ofValue (.dict [(.text (Text.ofString "one"),
        .array [.bool true, .int 1, .real ⟨0x3FF0000000000000⟩, .uid 1])]))⟩ = .ok bytes ∧
      binary.read bytes = .ok ⟨.only .binary, some g⟩ ∧
      g.value.Same (.dict [(.text (Text.ofString "one"),
        .array [.bool true, .int 1, .real ⟨0x3FF0000000000000⟩, .uid 1])]) := by
  have hover : (Value.dict [(.text (Text.ofString "one"),
      .array [.bool true, .int 1, .real ⟨0x3FF0000000000000⟩, .uid 1])]).Over
      Scalar.IsStorable (TextKeys Text.IsEncodable) := by
    refine .dict ⟨List.nodup_singleton _, fun k hk => ?_⟩ fun e he => ?_
    · obtain rfl := List.mem_singleton.mp hk
      exact ⟨_, rfl, "one".toList, rfl⟩
    · obtain rfl := List.mem_singleton.mp he
      refine .array fun w hw => ?_
      simp only [List.mem_cons, List.not_mem_nil, or_false] at hw
      rcases hw with rfl | rfl | rfl | rfl
      · exact .scalar trivial
      · exact .scalar ⟨by decide, by decide⟩
      · exact .scalar trivial
      · exact .scalar (by decide : 1 < 0x10000000000000000)
  obtain ⟨bytes, hwrite, hread⟩ := binary_roundTrip _ hover (by decide) {} .auto
  have hlength : (binary.write {} ⟨.auto, some (.ofValue (.dict [(.text (Text.ofString "one"),
      .array [.bool true, .int 1, .real ⟨0x3FF0000000000000⟩, .uid 1])]))⟩).toOption.map
      List.length = some 73 := by decide +kernel
  rw [hwrite] at hlength
  have hlen : bytes.length = 73 := Option.some.inj hlength
  obtain ⟨g, hg, hsame⟩ := hread (by rw [hlen]; decide)
  exact ⟨bytes, g, hwrite, hg, hsame⟩

end Encoding

end PropertyList
