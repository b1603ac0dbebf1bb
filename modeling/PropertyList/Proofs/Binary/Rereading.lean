/-
  PropertyList.Proofs.Binary.Rereading

  Reading again what was written of any graph whose keys are told apart.  The image of
  the records has texts as keys, so it is well-formed, and the reader finds it with the
  scalars that `Scalar.restored` says.  It can only fail at a date without a form that
  can be read, or where the image nests too deeply.
-/
import PropertyList.Proofs.Binary.Nesting
import PropertyList.Proofs.Binary.Rewriting
import PropertyList.Proofs.Binary.Sorted
import PropertyList.Proofs.Graph.Scalars

namespace PropertyList

/-! ## Keys in graphs -/

namespace Graph

variable {g : Graph}

/-- Keys that are text name the same entry exactly if they are the same text. -/
theorem sameKey_of_text {g : Graph} {i j : Nat} {s t : Text}
    (hs : g.nodes[i]? = some (.scalar (.text s))) (ht : g.nodes[j]? = some (.scalar (.text t))) :
    g.sameKey i j = decide (s = t) := by
  rw [sameKey, scalarAt_eq_of_getElem? hs, scalarAt_eq_of_getElem? ht, Scalar.sameKey_text]
  by_cases hij : i = j
  · subst hij
    obtain rfl := Scalar.text.inj (Node.scalar.inj (Option.some.inj (hs.symm.trans ht)))
    simp
  · rw [beq_eq_false_iff_ne.mpr hij, Bool.false_or]

/-- Texts are told apart as keys exactly if they are different. -/
theorem pairwise_sameKey_iff {es : List (Nat × Nat)}
    (htext : ∀ e ∈ es, ∃ t, g.nodes[e.1]? = some (.scalar (.text t))) :
    (es.Pairwise fun e f => g.sameKey e.1 f.1 = false) ↔ (es.map fun e => g.scalarAt e.1).Nodup := by
  rw [List.Nodup, List.pairwise_map]
  refine List.Pairwise.iff_of_mem fun {e f} he hf => ?_
  obtain ⟨s, hs⟩ := htext e he
  obtain ⟨t, ht⟩ := htext f hf
  rw [sameKey_of_text hs ht, scalarAt_eq_of_getElem? hs, scalarAt_eq_of_getElem? ht]
  simp

/-- The dictionaries that can be reached have scalars as keys, no two of which name the same
    entry. -/
structure WellKeyed (g : Graph) : Prop where
  key : ∀ (i : Nat) (es : List (Nat × Nat)), g.Reaches i → g.node i = .dict es →
    ∀ e ∈ es, ∃ s, g.nodes[e.1]? = some (.scalar s)
  apart : ∀ (i : Nat) (es : List (Nat × Nat)), g.Reaches i → g.node i = .dict es →
    es.Pairwise fun e f => g.sameKey e.1 f.1 = false

theorem WellFormed.wellKeyed (h : g.WellFormed) : g.WellKeyed where
  key := fun i es _ hnode => h.key i es (getElem?_of_node hnode (by simp))
  apart := fun i es _ hnode => h.apart i es (getElem?_of_node hnode (by simp))

/-- The keys of a tree with distinct texts as keys are told apart in a graph that holds it. -/
theorem Holds.wellKeyed {v : Value} (hv : g.Holds g.root v) (hkeys : v.IsTextKeyed) :
    g.WellKeyed := by
  -- every dictionary that can be reached shows a dictionary within the tree
  have hentries {i : Nat} {es : List (Nat × Nat)} (hi : g.Reaches i) (hnode : g.node i = .dict es) :
      ∃ entries : List (Scalar × Value), List.Forall₂ g.HoldsEntry es entries ∧
        TextKeys (fun _ => True) (entries.map (·.1)) := by
    obtain ⟨w, hw, htext⟩ :=
      hv.exists_of_reaches hi (M := Value.IsTextKeyed) hkeys fun u w hu hwu => hwu.over hu
    cases htext with
    | scalar => cases (node_eq_of_getElem? (holds_scalar.mp hw)).symm.trans hnode
    | array =>
      obtain ⟨ids, hget, -⟩ := holds_array.mp hw
      cases (node_eq_of_getElem? hget).symm.trans hnode
    | dict htext =>
      obtain ⟨ids, hget, hids⟩ := holds_dict.mp hw
      obtain rfl := Node.dict.inj ((node_eq_of_getElem? hget).symm.trans hnode)
      exact ⟨_, hids, htext⟩
  constructor
  · intro i es hi hnode e he
    obtain ⟨entries, hes, -⟩ := hentries hi hnode
    obtain ⟨f, -, hef⟩ := exists_of_forall₂_left hes he
    exact ⟨f.1, hef.1⟩
  · intro i es hi hnode
    obtain ⟨entries, hes, htext⟩ := hentries hi hnode
    -- the nodes of the keys can be different ones, so it is their texts that tell them apart
    refine (pairwise_sameKey_iff fun e he => ?_).mpr ?_
    · obtain ⟨f, hf, hef⟩ := exists_of_forall₂_left hes he
      obtain ⟨t, ht, -⟩ := htext.text f.1 (List.mem_map_of_mem hf)
      exact ⟨t, ht ▸ hef.1⟩
    · rw [map_eq_map_of_forall₂ hes fun e f hef => scalarAt_eq_of_getElem? hef.1]
      exact htext.nodup

/-- The parts of all nodes are there, and all dictionaries have distinct texts as keys. -/
structure TextKeyed (g : Graph) : Prop where
  parts : ∀ (i : Nat) (x : Node), g.nodes[i]? = some x → ∀ p ∈ x.parts, p < g.nodes.size
  text : ∀ (i : Nat) (es : List (Nat × Nat)), g.nodes[i]? = some (.dict es) →
    ∀ e ∈ es, ∃ t, g.nodes[e.1]? = some (.scalar (.text t))
  nodup : ∀ (i : Nat) (es : List (Nat × Nat)), g.nodes[i]? = some (.dict es) →
    (es.map fun e => g.scalarAt e.1).Nodup

namespace TextKeyed

theorem wellFormed (h : g.TextKeyed) : g.WellFormed where
  parts := h.parts
  key := by
    intro i es hget e he
    obtain ⟨t, ht⟩ := h.text i es hget e he
    exact ⟨.text t, ht⟩
  apart := fun i es hget => (pairwise_sameKey_iff (h.text i es hget)).mpr (h.nodup i es hget)

/-- Changing scalars other than texts leaves the keys as they are. -/
theorem mapScalars {f : Scalar → Scalar} (hf : ∀ t, f (.text t) = .text t) (h : g.TextKeyed) :
    (g.mapScalars f).TextKeyed := by
  have hnode {i : Nat} {x : Node} (hx : (g.mapScalars f).nodes[i]? = some x) :
      ∃ y, g.nodes[i]? = some y ∧ y.mapScalar f = x := by
    rw [getElem?_mapScalars] at hx
    exact Option.map_eq_some_iff.mp hx
  -- no change of scalars makes a dictionary of something else
  have hdict {i : Nat} {es : List (Nat × Nat)} (hx : (g.mapScalars f).nodes[i]? = some (.dict es)) :
      g.nodes[i]? = some (.dict es) := by
    obtain ⟨y, hy, hyx⟩ := hnode hx
    cases y with
    | scalar s => cases hyx
    | array items => cases hyx
    | dict fs => rw [hy, ← hyx, Node.mapScalar]
  have htext {i : Nat} {t : Text} (ht : g.nodes[i]? = some (.scalar (.text t))) :
      (g.mapScalars f).nodes[i]? = some (.scalar (.text t)) := getElem?_mapScalars_text hf rfl ht
  refine ⟨fun i x hx => ?_, fun i es hget e he => ?_, fun i es hget => ?_⟩
  · obtain ⟨y, hy, rfl⟩ := hnode hx
    rw [size_mapScalars, Node.parts_mapScalar]
    exact h.parts i y hy
  · obtain ⟨t, ht⟩ := h.text i es (hdict hget) e he
    exact ⟨t, htext ht⟩
  · have hkeys : (es.map fun e => (g.mapScalars f).scalarAt e.1) = es.map fun e => g.scalarAt e.1 := by
      refine List.map_congr_left fun e he => ?_
      obtain ⟨t, ht⟩ := h.text i es (hdict hget) e he
      rw [scalarAt_eq_of_getElem? ht, scalarAt_eq_of_getElem? (htext ht)]
    rw [hkeys]
    exact h.nodup i es (hdict hget)

end TextKeyed

end Graph

namespace Binary

variable {g : Graph} {sortKeys : Bool} {objects : Numbering} {rs : List Record} {bytes : List UInt8}

/-! ## What was written -/

/-- Objects that were written have records with these bytes. -/
theorem forall₂_of_encodeObjects {refSize : Nat} {os : List Numbered} {bs : List (List UInt8)}
    (h : encodeObjects g sortKeys refSize objects os = .ok bs) :
    List.Forall₂ (fun o b => ∃ r, recordOf g sortKeys objects o.node = .ok r ∧
      r.encode refSize = .ok b) os bs := by
  induction os generalizing bs with
  | nil =>
    obtain rfl := Except.ok.inj h
    exact .nil
  | cons o os ih =>
    obtain ⟨r, hr, h⟩ := exists_of_bind_eq_ok h
    obtain ⟨b, hb, h⟩ := exists_of_bind_eq_ok h
    obtain ⟨more, hmore, h⟩ := exists_of_bind_eq_ok h
    obtain rfl := Except.ok.inj h
    exact .cons ⟨r, hr, eq_ok_of_mapError hb⟩ (ih hmore)

theorem exists_of_write (h : write g sortKeys = .ok bytes) :
    ∃ objects bs, numberAll g sortKeys = .ok objects ∧
      List.Forall₂ (fun o b => ∃ r, recordOf g sortKeys objects o.node = .ok r ∧
        r.encode (widthFor objects.length) = .ok b) objects.reverse bs ∧
      bytes = assemble (widthFor objects.length) bs := by
  obtain ⟨objects, hobjects, h⟩ := exists_of_bind_eq_ok h
  obtain ⟨bs, hbs, h⟩ := exists_of_bind_eq_ok h
  exact ⟨objects, bs, eq_ok_of_mapError hobjects, forall₂_of_encodeObjects hbs,
    (Except.ok.inj h).symm⟩

theorem hasHeader_of_write (h : write g sortKeys = .ok bytes) : hasHeader bytes = true := by
  obtain ⟨objects, bs, -, -, rfl⟩ := exists_of_write h
  exact hasHeader_assemble _ _

/-- Only nodes that can be reached are objects. -/
theorem reaches_of_mem (h : numberAll g sortKeys = .ok objects) {o : Numbered} (ho : o ∈ objects) :
    g.Reaches o.node := by
  have hparts : ∀ i parts, g.Reaches i → listedParts g sortKeys (g.node i) = .ok parts →
      ∀ p ∈ parts, g.Reaches p := by
    intro i parts hi hlisted p hp
    exact .part hi ((listedParts_perm hlisted).mem_iff.mp hp)
  exact (number_reaches hparts .root h o ho).resolve_left List.not_mem_nil

/-- The numbers, the records and the bytes of a graph that was written. -/
structure Written (g : Graph) (sortKeys : Bool) (objects : Numbering) (rs : List Record)
    (bytes : List UInt8) : Prop extends Records g sortKeys objects rs where
  number : numberAll g sortKeys = .ok objects
  encoded : ∃ bs, List.Forall₂ (fun r b => r.encode (widthFor objects.length) = .ok b) rs bs ∧
    bytes = assemble (widthFor objects.length) bs

theorem exists_written (h : write g sortKeys = .ok bytes) :
    ∃ objects rs, Written g sortKeys objects rs bytes := by
  obtain ⟨objects, bs, hobjects, hbs, hbytes⟩ := exists_of_write h
  obtain ⟨rs, hrs⟩ := exists_records (numberAll_all hobjects)
  -- the records of the objects are those whose bytes were written
  refine ⟨objects, rs, hrs, hobjects, bs, forall₂_of_forall₂ hrs.records hbs ?_, hbytes⟩
  rintro o r b ⟨hr, -⟩ ⟨r', hr', hb⟩
  rwa [Except.ok.inj (hr.symm.trans hr')]

theorem Written.reaches (h : Written g sortKeys objects rs bytes) {o : Numbered}
    (ho : o ∈ objects) : g.Reaches o.node := reaches_of_mem h.number ho

/-- The scalar of a record stands at a node that can be reached. -/
theorem Written.exists_of_mem (h : Written g sortKeys objects rs bytes) {s : Scalar}
    (hs : .scalar s ∈ rs) : ∃ i, g.Reaches i ∧ g.node i = .scalar s := by
  obtain ⟨o, ho, hnode⟩ := h.exists_of_scalar hs
  exact ⟨o.node, h.reaches ho, hnode⟩

/-- The keys of a dictionary that was written are text. -/
theorem exists_text_of_orderedEntries (hg : g.WellKeyed) {i : Nat} (hi : g.Reaches i)
    {entries es : List (Nat × Nat)} (hnode : g.node i = .dict entries)
    (hordered : orderedEntries g sortKeys entries = .ok es) {e : Nat × Nat} (he : e ∈ entries) :
    ∃ t, g.nodes[e.1]? = some (.scalar (.text t)) := by
  have htext := isText_of_orderedEntries hordered e he
  obtain ⟨k, hk⟩ := hg.key i entries hi hnode e he
  rw [Graph.scalarAt_eq_of_getElem? hk] at htext
  rw [Scalar.eq_text_keyText htext] at hk
  exact ⟨k.keyText, hk⟩

/-! ## The image -/

namespace Records

/-- A node of the image is the record of an object. -/
theorem exists_of_image (h : Records g sortKeys objects rs) {i : Nat} {x : Node}
    (hx : (imageOf rs).nodes[i]? = some x) :
    ∃ o ∈ objects, ∃ r, Recorded g sortKeys objects o.node r ∧ r.node = x := by
  rw [imageOf, List.getElem?_toArray, List.getElem?_map, Option.map_eq_some_iff] at hx
  obtain ⟨r, hr, rfl⟩ := hx
  obtain ⟨o, ho, -, hrecorded⟩ := exists_of_forall₂_left h.records.flip (List.mem_of_getElem? hr)
  exact ⟨o, List.mem_reverse.mp ho, r, hrecorded, rfl⟩

theorem size_image (h : Records g sortKeys objects rs) :
    (imageOf rs).nodes.size = objects.length := by
  rw [imageOf, List.size_toArray, List.length_map, h.length_eq]

/-- The key of an entry is found at its number, as the same text. -/
theorem exists_text (h : Records g sortKeys objects rs) (hg : g.WellKeyed) {i : Nat}
    (hi : g.Reaches i) {entries es : List (Nat × Nat)} (hnode : g.node i = .dict entries)
    (hordered : orderedEntries g sortKeys entries = .ok es) {e : Nat × Nat} (he : e ∈ es)
    (hmet : identity g e.1 ∈ objects.identities) :
    ∃ t, g.nodes[e.1]? = some (.scalar (.text t)) ∧
      (imageOf rs).nodes[refOf g objects e.1]? = some (.scalar (.text t)) := by
  rw [eq_listedIds_of_orderedEntries hordered] at he
  have hmem : e ∈ entries := (listedIds_perm g sortKeys entries).mem_iff.mp he
  obtain ⟨t, ht⟩ := exists_text_of_orderedEntries hg hi hnode hordered hmem
  exact ⟨t, ht, h.holds_key ht rfl hmet⟩

/-- An array of the image is an array of the graph, with its items by their numbers. -/
theorem exists_items_of_image (h : Records g sortKeys objects rs) {i : Nat} {items : List Nat}
    (hget : (imageOf rs).nodes[i]? = some (.array items)) :
    ∃ j ids, g.node j = .array ids ∧ items = ids.map (refOf g objects) ∧
      ∀ q ∈ ids, identity g q ∈ objects.identities := by
  obtain ⟨o, -, r, hrecorded, hr⟩ := h.exists_of_image hget
  cases hrecorded with
  | scalar => cases hr
  | dict => cases hr
  | @array ids hnode hmet => exact ⟨o.node, ids, hnode, (Node.array.inj hr).symm, hmet⟩

/-- A dictionary of the image is a dictionary of the graph, with its entries in the order in which
    they are written. -/
theorem exists_entries_of_image (h : Records g sortKeys objects rs) {i : Nat}
    {fs : List (Nat × Nat)} (hget : (imageOf rs).nodes[i]? = some (.dict fs)) :
    ∃ o ∈ objects, ∃ entries es, g.node o.node = .dict entries ∧
      orderedEntries g sortKeys entries = .ok es ∧
      fs = es.map (fun e => (refOf g objects e.1, refOf g objects e.2)) ∧
      ∀ e ∈ es, identity g e.1 ∈ objects.identities ∧ identity g e.2 ∈ objects.identities := by
  obtain ⟨o, ho, r, hrecorded, hr⟩ := h.exists_of_image hget
  cases hrecorded with
  | scalar => cases hr
  | array => cases hr
  | @dict entries es hnode hordered hmet =>
    refine ⟨o, ho, entries, es, hnode, hordered, ?_, hmet⟩
    rw [← Node.dict.inj hr, List.zip_map']

/-- The parts of a node of the image are nodes of it. -/
theorem parts_image (h : Records g sortKeys objects rs) {i : Nat} {x : Node}
    (hget : (imageOf rs).nodes[i]? = some x) : ∀ p ∈ x.parts, p < (imageOf rs).nodes.size := by
  rw [h.size_image]
  cases x with
  | scalar s => exact List.forall_mem_nil _
  | array items =>
    obtain ⟨j, ids, -, rfl, hmet⟩ := h.exists_items_of_image hget
    exact List.forall_mem_map.mpr fun q hq => refOf_lt (hmet q hq)
  | dict fs =>
    obtain ⟨o, -, entries, es, -, -, rfl, hmet⟩ := h.exists_entries_of_image hget
    refine Node.forall_parts_dict.mpr (List.forall_mem_map.mpr fun e he => ?_)
    exact ⟨refOf_lt (hmet e he).1, refOf_lt (hmet e he).2⟩

/-- The keys of a dictionary of the image are different texts: they are those in the graph. -/
theorem textKeyed (h : Records g sortKeys objects rs) (hg : g.WellKeyed)
    (hreaches : ∀ o ∈ objects, g.Reaches o.node) : (imageOf rs).TextKeyed := by
  refine ⟨fun i x hget => h.parts_image hget, fun i fs hget f hf => ?_, fun i fs hget => ?_⟩
  · obtain ⟨o, ho, entries, es, hnode, hordered, rfl, hmet⟩ := h.exists_entries_of_image hget
    obtain ⟨e, he, rfl⟩ := List.mem_map.mp hf
    obtain ⟨t, -, ht⟩ := h.exists_text hg (hreaches o ho) hnode hordered he (hmet e he).1
    exact ⟨t, ht⟩
  · obtain ⟨o, ho, entries, es, hnode, hordered, rfl, hmet⟩ := h.exists_entries_of_image hget
    have hkeys : ((es.map fun e => (refOf g objects e.1, refOf g objects e.2)).map fun e =>
        (imageOf rs).scalarAt e.1) = es.map fun e => g.scalarAt e.1 := by
      rw [List.map_map]
      refine List.map_congr_left fun e he => ?_
      obtain ⟨t, ht, ht'⟩ := h.exists_text hg (hreaches o ho) hnode hordered he (hmet e he).1
      rw [Function.comp_apply, Graph.scalarAt_eq_of_getElem? ht, Graph.scalarAt_eq_of_getElem? ht']
    have hperm := listedIds_perm g sortKeys entries
    rw [← eq_listedIds_of_orderedEntries hordered] at hperm
    rw [hkeys, (hperm.map _).nodup_iff, ← Graph.pairwise_sameKey_iff]
    · exact hg.apart o.node entries (hreaches o ho) hnode
    · exact fun e he => exists_text_of_orderedEntries hg (hreaches o ho) hnode hordered he

end Records

/-- The image with what is left of its scalars. -/
def restoredImage (rs : List Record) : Graph := (imageOf rs).mapScalars Scalar.restored

/-- Where nothing is lost of any scalar, the image is as it was. -/
theorem restoredImage_eq (h : ∀ s, .scalar s ∈ rs → s.reread? = some s) :
    restoredImage rs = imageOf rs := by
  have hnodes : (rs.map Record.node).map (Node.mapScalar Scalar.restored) = rs.map Record.node := by
    rw [List.map_map]
    refine List.map_congr_left fun r hr => ?_
    cases r with
    | scalar s =>
      show Node.scalar s.restored = .scalar s
      rw [Scalar.restored_of_reread? (h s hr)]
    | array items => rfl
    | dict keys values => rfl
  rw [restoredImage, Graph.mapScalars, imageOf, List.map_toArray, hnodes]

/-! ## Reading it again -/

section Rereads

variable {src : Source}

theorem exists_of_restoredImage {i : Nat} {x : Node} (h : (restoredImage rs).nodes[i]? = some x) :
    ∃ r, rs[i]? = some r ∧ r.node.mapScalar Scalar.restored = x := by
  rw [restoredImage, Graph.getElem?_mapScalars, imageOf, List.getElem?_toArray, List.getElem?_map,
    Option.map_map] at h
  exact Option.map_eq_some_iff.mp h

/-- What is read of records is the image with what is left of its scalars. -/
theorem Rereads.follows (h : Rereads src rs) : Follows src (restoredImage rs) := by
  intro i x r' hx hr'
  obtain ⟨r, hr, rfl⟩ := exists_of_restoredImage hx
  rw [h i r hr] at hr'
  cases r with
  | scalar s =>
    obtain ⟨t, ht, rfl⟩ := Option.map_eq_some_iff.mp hr'
    show Node.scalar t = .scalar s.restored
    rw [Scalar.restored_of_reread? ht]
  | array items =>
    obtain rfl := Option.some.inj hr'
    rfl
  | dict keys values =>
    obtain rfl := Option.some.inj hr'
    rfl

theorem Rereads.exists_of_lacks (h : Rereads src rs) (hlacks : Lacks src (restoredImage rs)) :
    ∃ s, .scalar s ∈ rs ∧ s.reread? = none := by
  obtain ⟨i, x, hx, hnone⟩ := hlacks
  obtain ⟨r, hr, -⟩ := exists_of_restoredImage hx
  rw [h i r hr] at hnone
  cases r with
  | scalar s => exact ⟨s, List.mem_of_getElem? hr, Option.map_eq_none_iff.mp hnone⟩
  | array items => cases hnone
  | dict keys values => cases hnone

end Rereads

namespace Written

theorem exists_source (h : Written g sortKeys objects rs bytes)
    (hlen : bytes.length < 0x8000000000000000) :
    ∃ src, Rereads src rs ∧ read bytes =
      (readObject src readBudget (Array.replicate (restoredImage rs).nodes.size none) 0).map
        fun nodes => graphOf nodes 0 := by
  obtain ⟨bs, hbs, rfl⟩ := h.encoded
  rw [restoredImage, Graph.size_mapScalars, size_imageOf]
  exact Binary.exists_source h.toRecords hbs hlen

/-- What was written is read as the image with what is left of its scalars, unless some date cannot
    be read, or the image nests too deeply. -/
theorem ends_read (h : Written g sortKeys objects rs bytes) (hg : g.WellKeyed)
    (hlen : bytes.length < 0x8000000000000000) :
    Ends (∃ s, .scalar s ∈ rs ∧ s.reread? = none)
      (fun g' => ∃ nodes, g' = graphOf nodes 0 ∧ Faithful (restoredImage rs) [] nodes ∧
        nodes.Filled 0) (read bytes) := by
  obtain ⟨src, hsrc, hread⟩ := h.exists_source hlen
  have hroot : 0 < (restoredImage rs).nodes.size := by
    rw [restoredImage, Graph.size_mapScalars, h.size_image]
    exact Numbering.number?_lt h.root
  have himage : (restoredImage rs).WellFormed :=
    ((h.textKeyed hg fun o ho => h.reaches ho).mapScalars Scalar.restored_text).wellFormed
  have hends := endsEach hsrc.follows himage readBudget [] _ 0
    (fun i hi => absurd hi List.not_mem_nil) (Faithful.start _) hroot
  rw [hread]
  refine (hends.imp hsrc.exists_of_lacks fun _ => id).map ?_
  rintro nodes ⟨hfaithful, hreads⟩
  exact ⟨nodes, rfl, hfaithful, hreads.filled 0 List.mem_cons_self⟩

/-- The image holds what is left of the tree, as it was listed. -/
theorem exists_holds (h : Written g sortKeys objects rs bytes) {v : Value} (hkeys : HasTextKeys v)
    (hv : g.Holds g.root v) {negative : Bool} (hsign : ZeroSign g objects negative) :
    (restoredImage rs).Holds 0
      (((v.arranged sortKeys).mapScalars (Scalar.withZero negative)).mapScalars Scalar.restored) := by
  have hlisted : HasTextKeys (v.arranged sortKeys) :=
    hkeys.arranged sortKeys fun _ _ hperm hall k hk => hall k (hperm.mem_iff.mpr hk)
  exact (h.holds_image_root hsign hkeys hv).mapScalars Scalar.restored_text
    (hlisted.mapScalars fun _ _ => trivial)

/-- Only a tree of more than three hundred levels nests too deeply. -/
theorem le_depth (h : Written g sortKeys objects rs bytes) {v : Value} (hkeys : HasTextKeys v)
    (hv : g.Holds g.root v) (hlen : bytes.length < 0x8000000000000000)
    (hdeep : read bytes = .error .tooDeep) : 320 ≤ v.depth := by
  obtain ⟨src, hsrc, hread⟩ := h.exists_source hlen
  obtain ⟨negative, hsign⟩ := h.exists_zeroSign
  rw [hread] at hdeep
  obtain ⟨path, hpath⟩ := exhaustsEach _ _ _ _ (eq_error_of_map hdeep)
  have hholds := h.exists_holds hkeys hv hsign
  have hlength := hpath.chain.length_le hsrc.follows hholds
  -- neither listing the entries nor changing scalars makes a tree deeper
  have hlisted : HasTextKeys (v.arranged sortKeys) :=
    hkeys.arranged sortKeys fun _ _ hperm hall k hk => hall k (hperm.mem_iff.mpr hk)
  have hsigns : HasTextKeys ((v.arranged sortKeys).mapScalars (Scalar.withZero negative)) :=
    hlisted.mapScalars fun _ _ => trivial
  have hrestored := hsigns.depth_mapScalars_le Scalar.restored
  have hsigned := hlisted.depth_mapScalars_le (Scalar.withZero negative)
  have harranged := Value.depth_arranged_le sortKeys v
  have hbudget := hpath.length
  rw [readBudget] at hbudget
  omega

end Written

/-- What is written of a graph can be read and written again, unless it nests too deeply, if all
    dates in it come back as they were. -/
theorem exists_stored_of_reread (hg : g.WellKeyed)
    (hscalars : ∀ i s, g.Reaches i → g.node i = .scalar s → s.reread? = some s)
    (hwrite : Binary.write g sortKeys = .ok bytes) (hdeep : Binary.read bytes ≠ .error .tooDeep) :
    ∃ objects rs, Stored g sortKeys objects rs bytes := by
  obtain ⟨objects, rs, hwritten⟩ := exists_written hwrite
  have hrs : ∀ s, .scalar s ∈ rs → s.reread? = some s := by
    intro s hs
    obtain ⟨i, hi, hnode⟩ := hwritten.exists_of_mem hs
    exact hscalars i s hi hnode
  refine ⟨objects, rs, hwritten.toRecords, hwritten.number, hasHeader_of_write hwrite, hwrite,
    fun hlen => ?_⟩
  have hnone : ¬ ∃ s, .scalar s ∈ rs ∧ s.reread? = none := by
    rintro ⟨s, hs, hnone⟩
    cases hnone.symm.trans (hrs s hs)
  obtain ⟨g', hread, nodes, rfl, hfaithful, hfilled⟩ :=
    (hwritten.ends_read hg hlen).exists_ok hnone hdeep
  rw [restoredImage_eq hrs] at hfaithful
  exact ⟨nodes, hread, hfaithful, hfilled⟩

/-- What is written of a well-formed graph can be read, unless it nests too deeply. -/
theorem exists_stored_of_write (hg : g.WellFormed)
    (hdates : ∀ i t, g.Reaches i → g.node i = .scalar (.date t) → t.IsValid ∧ t.microsecond = 0)
    (hwrite : Binary.write g sortKeys = .ok bytes) (hdeep : Binary.read bytes ≠ .error .tooDeep) :
    ∃ objects rs, Stored g sortKeys objects rs bytes := by
  refine exists_stored_of_reread hg.wellKeyed (fun i s hi hnode => ?_) hwrite hdeep
  refine Scalar.reread?_of_dates ?_
  rintro t rfl
  obtain ⟨hvalid, hmicro⟩ := hdates i t hi hnode
  exact DateTime.ofSeconds?_secondsSinceEpoch hvalid hmicro

end Binary

end PropertyList
