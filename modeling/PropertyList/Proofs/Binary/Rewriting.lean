/-
  PropertyList.Proofs.Binary.Rewriting

  Writing again what was read from a binary list gives the same bytes, and so
  does writing a tree whose entries are listed in another order, if they are
  sorted.  In both cases the two graphs are related node by node.
-/
import PropertyList.Proofs.Binary.RoundTrip
import PropertyList.Proofs.Binary.Simulation

namespace PropertyList.Binary

variable {g g' : Graph} {sortKeys : Bool} {objects : Numbering} {rs : List Record}

/-! ## What was read -/

/-- Entries that were put in order have text as keys. -/
theorem isText_of_mem_orderedEntries {entries es : List (Nat × Nat)}
    (hordered : orderedEntries g sortKeys entries = .ok es) {e : Nat × Nat} (he : e ∈ es) :
    (g.scalarAt e.1).text?.isSome = true := by
  refine isText_of_orderedEntries hordered e ?_
  rw [eq_listedIds_of_orderedEntries hordered] at he
  exact (listedIds_perm g sortKeys entries).mem_iff.mp he

/-- Entries that were put in order stay in this order wherever their keys are found again. -/
theorem orderedEntries_map {ids es : List (Nat × Nat)} {f : Nat × Nat → Nat × Nat}
    (h : orderedEntries g sortKeys ids = .ok es)
    (hkey : ∀ e ∈ es, g'.scalarAt (f e).1 = g.scalarAt e.1) :
    orderedEntries g' sortKeys (es.map f) = .ok (es.map f) := by
  have hes := eq_listedIds_of_orderedEntries h
  have htext : ∀ e ∈ es, (g.scalarAt e.1).text?.isSome = true := fun _ he =>
    isText_of_mem_orderedEntries h he
  -- sorting what is sorted changes nothing, as the keys are the same texts
  have hlisted : listedIds g' sortKeys (es.map f) = es.map f := by
    cases sortKeys with
    | false => rfl
    | true =>
      refine (Text.sortBy_map fun e he => by rw [hkey e he]).trans (congrArg (List.map f) ?_)
      rw [hes]
      exact Text.sortBy_sortBy (fun p => (g.scalarAt p.1).keyText) ids
  have htext' : ∀ p ∈ es.map f, (g'.scalarAt p.1).text?.isSome = true := by
    intro p hp
    obtain ⟨e, he, rfl⟩ := List.mem_map.mp hp
    rw [hkey e he]
    exact htext e he
  rw [orderedEntries_of_text sortKeys htext', hlisted]

/-- A node that is the same object as a scalar has this scalar, up to the sign of a zero. -/
theorem exists_scalar_of_identity_eq {i j : Nat} {s : Scalar} (hs : g.node i = .scalar s)
    (h : identity g j = identity g i) :
    ∃ t, g.node j = .scalar t ∧ t.unsignedZero = s.unsignedZero := by
  rw [identity_of_scalar hs] at h
  split at h
  · obtain rfl := eq_of_identity_node h
    exact ⟨s, hs, rfl⟩
  · exact exists_of_identity_value h

/-- Nodes with the same number are the same object. -/
theorem identity_eq_of_refOf_eq {i j : Nat} (hi : identity g i ∈ objects.identities)
    (hj : identity g j ∈ objects.identities) (h : refOf g objects i = refOf g objects j) :
    identity g i = identity g j := by
  obtain ⟨o, ho, hid⟩ := exists_object hi
  obtain ⟨o', ho', hid'⟩ := exists_object hj
  rw [h, ho'] at ho
  rw [← hid, ← hid', Option.some.inj ho]

/-- A node of a graph and the one at its number in what was read. -/
structure Reread (g : Graph) (objects : Numbering) (nodes : Nodes) (i j : Nat) : Prop where
  met : identity g i ∈ objects.identities
  number : j = refOf g objects i
  filled : nodes.Filled j

section Reread

variable {nodes : Nodes} {i j : Nat}

/-- The node at a number is the record of the object, and all its parts were read. -/
theorem Reread.exists_record (h : Records g sortKeys objects rs)
    (hfaithful : Faithful (imageOf rs) [] nodes) (hij : Reread g objects nodes i j) :
    ∃ o ∈ objects, ∃ r, o.identity = identity g i ∧ Recorded g sortKeys objects o.node r ∧
      (graphOf nodes 0).node j = r.node ∧ ∀ p ∈ r.node.parts, nodes.Filled p := by
  obtain ⟨o, ho, r, hget, hid, hrecorded⟩ := h.exists_mem_getElem? hij.met
  rw [← hij.number] at hget
  obtain ⟨x, hx⟩ := hij.filled
  obtain ⟨himage, hparts⟩ := (hfaithful.closed j x hx).resolve_left List.not_mem_nil
  obtain rfl := Option.some.inj (himage.symm.trans (getElem?_imageOf hget))
  exact ⟨o, ho, r, hid, hrecorded, Graph.node_eq_of_getElem? (getElem?_graphOf hx), hparts⟩

theorem node_eq_of_isText (htext : (g.scalarAt i).text?.isSome = true) :
    g.node i = .scalar (g.scalarAt i) := by
  unfold Graph.scalarAt at htext ⊢
  split
  · next s hs => exact hs
  · next hnone =>
    split at htext
    · next s hs => exact absurd hs (hnone s)
    · cases htext

/-- The key of an entry is found again at its number. -/
theorem Reread.scalarAt_eq (h : Records g sortKeys objects rs)
    (hfaithful : Faithful (imageOf rs) [] nodes) (hij : Reread g objects nodes i j)
    (htext : (g.scalarAt i).text?.isSome = true) :
    (graphOf nodes 0).scalarAt j = g.scalarAt i := by
  obtain ⟨o, ho, r, hid, hrecorded, hnode, -⟩ := hij.exists_record h hfaithful
  rw [h.own o ho] at hid
  obtain ⟨t, ht, hunsigned⟩ := exists_scalar_of_identity_eq (node_eq_of_isText htext) hid
  have hsame := Scalar.same_of_unsignedZero hunsigned
  rw [Scalar.eq_text_keyText htext] at hsame ⊢
  rw [hrecorded.exists_scalar ht, Scalar.same_text hsame] at hnode
  rw [Graph.scalarAt, hnode]
  rfl

/-- A node and what stands at its number: the same scalar, up to the sign of a zero, or the
    container with its parts at their numbers, listed in the order in which they were written. -/
inductive Copied (g : Graph) (sortKeys : Bool) (objects : Numbering) (nodes : Nodes) :
    Node → Node → Prop where
  | scalar {s t : Scalar} (h : s.unsignedZero = t.unsignedZero) :
      Copied g sortKeys objects nodes (.scalar s) (.scalar t)
  | array {items : List Nat} (h : ∀ p ∈ items, Reread g objects nodes p (refOf g objects p)) :
      Copied g sortKeys objects nodes (.array items) (.array (items.map (refOf g objects)))
  | dict {entries es : List (Nat × Nat)} (hordered : orderedEntries g sortKeys entries = .ok es)
      (h : ∀ e ∈ es, Reread g objects nodes e.1 (refOf g objects e.1) ∧
        Reread g objects nodes e.2 (refOf g objects e.2)) :
      Copied g sortKeys objects nodes (.dict entries)
        (.dict (es.map fun e => (refOf g objects e.1, refOf g objects e.2)))

theorem Reread.copied (h : Records g sortKeys objects rs)
    (hfaithful : Faithful (imageOf rs) [] nodes) (hij : Reread g objects nodes i j) :
    Copied g sortKeys objects nodes (g.node i) ((graphOf nodes 0).node j) := by
  obtain ⟨o, ho, r, hid, hrecorded, hnode, hparts⟩ := hij.exists_record h hfaithful
  rw [h.own o ho] at hid
  rw [hnode]
  -- the record tells the copy from the node, up to the sign of a zero
  cases hi : g.node i with
  | scalar s =>
    obtain ⟨t, ht, hst⟩ := exists_scalar_of_identity_eq hi hid
    rw [hrecorded.exists_scalar ht]
    exact .scalar hst.symm
  | array items =>
    obtain ⟨rfl, hmet⟩ := hrecorded.of_array hi hid
    exact .array fun p hp => ⟨hmet p hp, rfl, hparts _ (List.mem_map_of_mem hp)⟩
  | dict entries =>
    obtain ⟨es, hordered, hrnode, hmet⟩ := hrecorded.of_dict hi hid
    rw [hrnode] at hparts ⊢
    refine .dict hordered fun e he => ?_
    have hmem : (refOf g objects e.1, refOf g objects e.2) ∈
        es.map fun e => (refOf g objects e.1, refOf g objects e.2) := List.mem_map_of_mem he
    obtain ⟨hkey, hvalue⟩ := Node.forall_parts_dict.mp hparts _ hmem
    exact ⟨⟨(hmet e he).1, rfl, hkey⟩, (hmet e he).2, rfl, hvalue⟩

theorem Reread.alike (h : Records g sortKeys objects rs)
    (hfaithful : Faithful (imageOf rs) [] nodes) (hij : Reread g objects nodes i j) :
    Alike g (graphOf nodes 0) sortKeys (Reread g objects nodes) (g.node i)
      ((graphOf nodes 0).node j) := by
  have hcopied := hij.copied h hfaithful
  generalize g.node i = x at hcopied ⊢
  generalize (graphOf nodes 0).node j = y at hcopied ⊢
  cases hcopied with
  | scalar hst => exact .scalar hst
  | array hitems =>
    refine .array ?_
    rw [List.forall₂_map_right_iff, List.forall₂_same]
    exact hitems
  | dict hordered hentry =>
    refine .dict hordered (orderedEntries_map hordered fun e he => ?_) ?_
    · exact (hentry e he).1.scalarAt_eq h hfaithful (isText_of_mem_orderedEntries hordered he)
    · rw [List.forall₂_map_right_iff, List.forall₂_same]
      exact hentry

/-- What was read simulates what was written. -/
theorem simulates_reread (h : Records g sortKeys objects rs)
    (hfaithful : Faithful (imageOf rs) [] nodes) :
    Simulates g (graphOf nodes 0) sortKeys objects (Reread g objects nodes) where
  alike := fun hij => hij.alike h hfaithful
  exact := by
    intro i j s hij hfirst hs
    obtain ⟨o, ho, r, hid, hrecorded, hnode, -⟩ := hij.exists_record h hfaithful
    -- the object is the first with its identity, so the record is that of this node
    have hsame : o = ⟨identity g i, i⟩ := List.inj_on_of_nodup_map h.nodup ho hfirst hid
    rw [hsame] at hrecorded
    rw [hnode, hrecorded.exists_scalar hs]
    rfl
  place := by
    intro i j i' j' hij hij' hi hi'
    constructor
    · rintro rfl
      rw [hij.number, hij'.number]
    · intro hjj'
      rw [hij.number, hij'.number] at hjj'
      have hid := identity_eq_of_refOf_eq hij.met hij'.met hjj'
      rw [hi, hi'] at hid
      exact Identity.node.inj hid

end Reread

/-- The root is found at number 0. -/
theorem Stored.reread_root {bytes : List UInt8} (h : Stored g sortKeys objects rs bytes)
    {nodes : Nodes} (hfilled : nodes.Filled 0) : Reread g objects nodes g.root 0 := by
  refine ⟨?_, ?_, hfilled⟩
  · rw [← Numbering.number?_isSome, h.root]
    rfl
  · rw [refOf, h.root, Option.getD_some]

/-- Writing again what was read gives the same bytes. -/
theorem Stored.write_reread {bytes : List UInt8} (h : Stored g sortKeys objects rs bytes)
    {nodes : Nodes} (hfaithful : Faithful (imageOf rs) [] nodes) (hfilled : nodes.Filled 0) :
    Binary.write (graphOf nodes 0) sortKeys = .ok bytes := by
  rw [← h.write]
  exact (simulates_reread h.toRecords hfaithful).write_eq (h.reread_root hfilled) h.number

end PropertyList.Binary
