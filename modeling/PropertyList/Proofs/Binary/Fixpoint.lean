/-
  PropertyList.Proofs.Binary.Fixpoint

  Writing what was read from any binary list, and reading it again.  The two graphs
  unfold to the same trees down to every depth, and what was shared or contained
  itself still does.  Writing the second graph gives the same bytes, so from there
  on nothing changes any more.
-/
import PropertyList.Proofs.Binary.Rereading

namespace PropertyList

namespace Graph

/-- The tree below a node down to a given depth, where null stands for all that lies deeper. -/
def unrolled (g : Graph) : Nat → Nat → Value
  | 0, _ => .null
  | depth + 1, i =>
    match g.node i with
    | .scalar s => .scalar s
    | .array items => .array (items.map (g.unrolled depth))
    | .dict entries => .dict (entries.map fun e => (g.scalarAt e.1, g.unrolled depth e.2))

end Graph

namespace Binary

variable {g : Graph} {sortKeys : Bool} {objects : Numbering} {rs : List Record} {bytes : List UInt8}

/-! ## The same tree at every depth -/

section Reread

variable {nodes : Nodes} {i j : Nat}

/-- Nodes to which the same way leads are a node and its copy. -/
theorem Reread.of_matched (h : Records g sortKeys objects rs)
    (hfaithful : Faithful (imageOf rs) [] nodes) (hroot : Reread g objects nodes g.root 0)
    (hij : Matched g (graphOf nodes 0) sortKeys i j) : Reread g objects nodes i j := by
  induction hij with
  | root => exact hroot
  | @part i j p q ps qs _ hps hqs hpq ih =>
    obtain ⟨ps', qs', hps', hqs', hall⟩ := (ih.alike h hfaithful).exists_listedParts
    obtain rfl := Except.ok.inj (hps.symm.trans hps')
    obtain rfl := Except.ok.inj (hqs.symm.trans hqs')
    exact (List.forall₂_iff_zip.mp hall).2 hpq

/-- The tree below the copy of a node is the tree below the node, as it is listed. -/
theorem Reread.same_unrolled (h : Records g sortKeys objects rs)
    (hfaithful : Faithful (imageOf rs) [] nodes) (hij : Reread g objects nodes i j) (depth : Nat) :
    ((graphOf nodes 0).unrolled depth j).Same ((g.unrolled depth i).arranged sortKeys) := by
  induction depth generalizing i j with
  | zero =>
    rw [Graph.unrolled, Graph.unrolled, Value.arranged_scalar]
    exact Value.same_refl _
  | succ depth ih =>
    have hcopied := hij.copied h hfaithful
    rw [Graph.unrolled, Graph.unrolled]
    generalize g.node i = x at hcopied ⊢
    generalize (graphOf nodes 0).node j = y at hcopied ⊢
    -- copies have copies as parts, in the order in which they were listed
    cases hcopied with
    | scalar hst =>
      show Value.Same (.scalar _) ((Value.scalar _).arranged sortKeys)
      rw [Value.arranged_scalar, Value.Same]
      exact Scalar.same_of_unsignedZero hst.symm
    | @array items hitems =>
      show Value.Same (.array _) ((Value.array _).arranged sortKeys)
      rw [Value.arranged_array, Value.Same, Value.sameItems_iff, List.map_map, List.map_map,
        List.forall₂_map_left_iff, List.forall₂_map_right_iff, List.forall₂_same]
      exact fun p hp => ih (hitems p hp)
    | @dict entries es hordered hentries =>
      show Value.Same (.dict _) ((Value.dict _).arranged sortKeys)
      have hlisted : Value.listedEntries sortKeys
          (entries.map fun e => (g.scalarAt e.1, g.unrolled depth e.2)) =
            es.map fun e => (g.scalarAt e.1, g.unrolled depth e.2) := by
        rw [eq_listedIds_of_orderedEntries hordered]
        cases sortKeys with
        | false => rfl
        | true => exact Text.sortBy_map fun _ _ => rfl
      rw [Value.arranged_dict, hlisted, Value.Same, Value.sameEntries_iff, List.map_map,
        List.map_map, List.forall₂_map_left_iff, List.forall₂_map_right_iff, List.forall₂_same]
      intro e he
      obtain ⟨hkey, hvalue⟩ := hentries e he
      refine ⟨?_, ih hvalue⟩
      exact hkey.scalarAt_eq h hfaithful (isText_of_mem_orderedEntries hordered he)

end Reread

end Binary

/-! ## Documents -/

namespace Encoding

theorem binary_read_of_error {bytes : List UInt8} {fault : Binary.ReadFault}
    (hheader : Binary.hasHeader bytes = true) (h : Binary.read bytes = .error fault) :
    binary.read bytes = .error (.binary fault) := by
  have hbinary : isBinary bytes = true := hheader
  rw [read]
  simp only [if_pos hbinary, h]

/-- What was read from any binary list, with shared containers or cycles, is written as bytes that
    are read again, if no date loses anything and nothing nests too deeply.  The two documents
    unfold to the same tree down to every depth, with entries in ascending order of their keys if
    they are sorted; two ways lead to one node exactly if they lead to one object in the document
    that was written.  Writing again gives the same bytes. -/
theorem binary_rewrite {payload bytes : List UInt8} {g : Graph} {options : WriteOptions}
    (hread : binary.read payload = .ok ⟨.only .binary, some g⟩)
    (hwrite : binary.write options ⟨.only .binary, some g⟩ = .ok bytes)
    (hdates : ∀ i t, g.Reaches i → g.node i = .scalar (.date t) → t.microsecond = 0)
    (hlen : bytes.length < 0x8000000000000000)
    (hdeep : binary.read bytes ≠ .error (.binary .tooDeep)) :
    ∃ g', binary.read bytes = .ok ⟨.only .binary, some g'⟩ ∧
      (∀ depth, (g'.unrolled depth g'.root).Same
        ((g.unrolled depth g.root).arranged options.sortKeys)) ∧
      (∀ i j i' j', Binary.Matched g g' options.sortKeys i j →
        Binary.Matched g g' options.sortKeys i' j' →
        (j = j' ↔ Binary.identity g i = Binary.identity g i')) ∧
      binary.write options ⟨.only .binary, some g'⟩ = .ok bytes := by
  have hgraph := read_of_binary_read hread
  have hgraph' : Binary.write g options.sortKeys = .ok bytes := eq_ok_of_mapError hwrite
  have hheader : Binary.hasHeader bytes = true := by
    obtain ⟨objects, bs, -, -, rfl⟩ := Binary.exists_of_write hgraph'
    exact Binary.hasHeader_assemble _ _
  -- dates that were read are valid, and they have no fraction
  have hvalid : ∀ i t, g.Reaches i → g.node i = .scalar (.date t) →
      t.IsValid ∧ t.microsecond = 0 := by
    intro i t hi ht
    exact ⟨Binary.isValid_of_read hgraph ht, hdates i t hi ht⟩
  have hdeep' : Binary.read bytes ≠ .error .tooDeep := by
    intro htoo
    exact hdeep (binary_read_of_error hheader htoo)
  obtain ⟨objects, rs, hstored⟩ := Binary.exists_stored_of_write
    (Binary.wellFormed_of_read hgraph).1 hvalid hgraph' hdeep'
  obtain ⟨nodes, hnodes, hfaithful, hfilled⟩ := hstored.read hlen
  -- the root was written first, so its copy is the first object
  have hroot := hstored.reread_root hfilled
  refine ⟨Binary.graphOf nodes 0, binary_read_of_ok hheader hnodes, ?_, ?_, ?_⟩
  · exact hroot.same_unrolled hstored.toRecords hfaithful
  -- the place of a copy is the number of the object, and numbers tell objects apart
  · intro i j i' j' hij hij'
    have hcopy := Binary.Reread.of_matched hstored.toRecords hfaithful hroot hij
    have hcopy' := Binary.Reread.of_matched hstored.toRecords hfaithful hroot hij'
    rw [hcopy.number, hcopy'.number]
    constructor
    · exact Binary.identity_eq_of_refOf_eq hcopy.met hcopy'.met
    · intro hid
      rw [Binary.refOf, Binary.refOf, hid]
  · exact binary_write_of_ok (hstored.write_reread hfaithful hfilled)

/-- A list that holds itself, and a dictionary twice, with its objects listed from the last to the
    first. -/
theorem binary_rewrite_cyclic :
    ∃ payload bytes g g', payload ≠ bytes ∧
      binary.read payload = .ok ⟨.only .binary, some g⟩ ∧ g.nodes = #[.scalar (.text
        (Text.ofString "a")), .dict [(0, 0)], .array [2, 1, 1]] ∧
      binary.write {} ⟨.only .binary, some g⟩ = .ok bytes ∧
      binary.read bytes = .ok ⟨.only .binary, some g'⟩ ∧
      (∀ depth, (g'.unrolled depth g'.root).Same (g.unrolled depth g.root)) ∧
      binary.write {} ⟨.only .binary, some g'⟩ = .ok bytes := by
  -- trailers that differ in the number of the root
  let tail (root : UInt8) : List UInt8 :=
    [0, 0, 0, 0, 0, 0, 1, 1, 0, 0, 0, 0, 0, 0, 0, 3, 0, 0, 0, 0, 0, 0, 0, root,
      0, 0, 0, 0, 0, 0, 0, 17]
  let payload := Binary.header ++ [0x51, 0x61, 0xD1, 0, 0, 0xA3, 2, 1, 1, 8, 10, 13] ++ tail 2
  let bytes := Binary.header ++ [0xA3, 0, 1, 1, 0xD1, 2, 2, 0x51, 0x61, 8, 12, 15] ++ tail 0
  let g : Graph := ⟨#[.scalar (.text (Text.ofString "a")), .dict [(0, 0)], .array [2, 1, 1]], 2⟩
  have hread : Binary.read payload = .ok g := by decide +kernel
  have hwrite : Binary.write g false = .ok bytes := by decide +kernel
  have hlen : bytes.length < 0x8000000000000000 := by decide +kernel
  have hdates : ∀ i t, g.Reaches i → g.node i = .scalar (.date t) → t.microsecond = 0 := by
    intro i t _ ht
    have hmem := Array.mem_of_getElem? (Graph.getElem?_of_node ht (by simp))
    simp [g] at hmem
  have hdeep : binary.read bytes ≠ .error (.binary .tooDeep) := by
    intro h
    have hok : (binary.read bytes).isOk = true := by decide +kernel
    rw [h] at hok
    cases hok
  have hdocument : binary.read payload = .ok ⟨.only .binary, some g⟩ :=
    binary_read_of_ok (by decide) hread
  have hwritten : binary.write {} ⟨.only .binary, some g⟩ = .ok bytes := binary_write_of_ok hwrite
  have hne : payload ≠ bytes := by decide +kernel
  obtain ⟨g', hread', hsame, -, hwrite'⟩ := binary_rewrite hdocument hwritten hdates hlen hdeep
  exact ⟨payload, bytes, g, g', hne, hdocument, rfl, hwritten, hread', hsame, hwrite'⟩

end Encoding

end PropertyList
