/-
  PropertyList.Proofs.Binary.Nested

  Arrays in each other.  The writer goes down further than the reader: from 320 arrays
  around an empty one on, a list is written that nests too deeply to be read.
-/
import PropertyList.Proofs.Binary.Faults

namespace PropertyList

/-! ## The tree and its graph -/

/-- An empty array in `n` arrays. -/
def Value.nested : Nat → Value
  | 0 => .array []
  | n + 1 => .array [nested n]

namespace Value

theorem over_nested {P : Scalar → Prop} {K : List Scalar → Prop} (n : Nat) : (nested n).Over P K := by
  induction n with
  | zero => exact .array (List.forall_mem_nil _)
  | succ n ih =>
    refine .array fun v hv => ?_
    rw [List.mem_singleton.mp hv]
    exact ih

theorem not_mentions_nested {s : Scalar} (n : Nat) : ¬ (nested n).Mentions s := by
  induction n with
  | zero =>
    rintro ⟨⟩
    contradiction
  | succ n ih =>
    intro h
    obtain ⟨v, hv, hs⟩ := mentions_array_iff.mp h
    rw [List.mem_singleton.mp hv] at hs
    exact ih hs

theorem depth_nested (n : Nat) : (nested n).depth = n + 1 := by
  induction n with
  | zero => rfl
  | succ n ih =>
    apply Nat.le_antisymm
    · rw [nested, depth_array_le_iff]
      intro v hv
      rw [List.mem_singleton.mp hv, ih]
    · have hlt : (nested n).depth < (nested (n + 1)).depth :=
        depth_lt_of_mem_array List.mem_cons_self
      omega

/-- Without scalars and dictionaries, there is nothing to change. -/
theorem transform_nested (f : Scalar → Scalar) (d : List (Scalar × Value) → List (Scalar × Value))
    (n : Nat) : (nested n).transform f d = nested n := by
  induction n with
  | zero => rfl
  | succ n ih => rw [nested, transform_array, List.map_singleton, ih]

theorem mapScalars_nested (f : Scalar → Scalar) (n : Nat) : (nested n).mapScalars f = nested n :=
  transform_nested f id n

theorem arranged_nested (sortKeys : Bool) (n : Nat) : (nested n).arranged sortKeys = nested n := by
  cases sortKeys with
  | false => rfl
  | true => exact transform_nested id sortEntries n

end Value

namespace Graph

open Value (nested)

theorem size_addValue_nested (path : List Nat) (nodes : Array Node) (n : Nat) :
    (addValue path nodes (nested n)).1.size = nodes.size + n + 1 := by
  induction n generalizing path nodes with
  | zero => simp only [nested, addValue, addItems, Array.size_setIfInBounds, Array.size_push]
  | succ n ih =>
    simp only [nested, addValue, addItems, Array.size_setIfInBounds, ih, Array.size_push]
    omega

theorem size_ofValue_nested (n : Nat) : (ofValue (nested n)).nodes.size = n + 1 := by
  rw [ofValue_eq, size_addValue_nested, Array.size_empty, Nat.zero_add]

variable {g : Graph} {i m n : Nat}

theorem holds_nested_succ :
    g.Holds i (nested (n + 1)) ↔ ∃ p, g.nodes[i]? = some (.array [p]) ∧ g.Holds p (nested n) := by
  rw [nested, holds_array]
  constructor
  · rintro ⟨ids, hget, hids⟩
    obtain ⟨p, rest, hp, hrest, rfl⟩ := List.forall₂_cons_right_iff.mp hids
    obtain rfl := List.forall₂_nil_right_iff.mp hrest
    exact ⟨p, hget, hp⟩
  · rintro ⟨p, hget, hp⟩
    exact ⟨[p], hget, .cons hp .nil⟩

theorem exists_items_of_nested (h : g.Holds i (nested n)) :
    ∃ ids, g.node i = .array ids ∧ ids.length ≤ 1 := by
  cases n with
  | zero =>
    obtain ⟨ids, hget, hids⟩ := holds_array.mp h
    refine ⟨ids, node_eq_of_getElem? hget, ?_⟩
    rw [hids.length_eq]
    exact Nat.zero_le 1
  | succ n =>
    obtain ⟨p, hget, -⟩ := holds_nested_succ.mp h
    exact ⟨[p], node_eq_of_getElem? hget, Nat.le_refl 1⟩

end Graph

namespace Binary

open Value (nested)

variable {g img : Graph} {src : Source} {sortKeys : Bool} {objects : Numbering} {rs : List Record}
  {bytes : List UInt8}

/-! ## Reading them -/

/-- Arrays that have not been read use up three units each, as long as there is one inside. -/
theorem readObject_nested (hsrc : Matches src img) {n budget ref : Nat} {nodes : Nodes}
    (hv : img.Holds ref (nested n)) (hbudget : budget ≤ 3 * n)
    (hfree : ∀ p m, m ≤ n → img.Holds p (nested m) → nodes[p]? = some none) :
    readObject src budget nodes ref = .error .tooDeep := by
  induction n generalizing budget ref nodes with
  | zero =>
    obtain rfl : budget = 0 := by omega
    rfl
  | succ n ih =>
    obtain ⟨p, hget, hp⟩ := Graph.holds_nested_succ.mp hv
    obtain ⟨r, hrecord, hnode⟩ := hsrc ref _ hget
    obtain rfl := Record.eq_array_of_node hnode
    have hunread := hfree ref (n + 1) (Nat.le_refl _) hv
    cases budget with
    | zero => rfl
    | succ budget =>
      by_cases hlow : budget < 2
      · rw [readObject_array_low hunread hrecord hlow]
        rfl
      · obtain ⟨inner, rfl⟩ : ∃ inner, budget = inner + 2 := ⟨budget - 2, by omega⟩
        rw [readObject_array hunread hrecord, List.foldlM_cons]
        -- the array that was entered is none of those inside
        rw [ih hp (by omega) fun q m hm hq => ?_]
        · rfl
        · have hlt : (nested m).depth < (nested (n + 1)).depth := by
            rw [Value.depth_nested, Value.depth_nested]
            omega
          have hne : ref ≠ q := (hq.ne_of_depth_lt hv hlt).symm
          rw [Array.getElem?_setIfInBounds_ne hne]
          exact hfree q m (by omega) hq

/-! ## Writing them -/

/-- There are no more objects than nodes. -/
theorem Written.length_le_size (h : Written g sortKeys objects rs bytes) {v : Value}
    (hv : g.Holds g.root v) : objects.length ≤ g.nodes.size := by
  have hnodup : (objects.map Numbered.node).Nodup := by
    have hids := h.nodup
    rw [Numbering.identities, List.map_congr_left h.own, ← Function.comp_def, ← List.map_map] at hids
    exact hids.of_map
  rw [← List.length_map Numbered.node]
  refine Graph.length_le_of_nodup hnodup (List.forall_mem_map.mpr fun o ho => ?_)
  obtain ⟨w, hw, -⟩ := hv.exists_of_reaches (h.reaches ho) (M := fun _ => True) trivial
    fun _ _ _ _ => trivial
  exact hw.lt_size

/-- The record of an array with one item, or none, is a marker with a reference. -/
theorem Written.length_record_le (h : Written g sortKeys objects rs bytes) {n : Nat}
    (hv : g.Holds g.root (nested n)) {r : Record} (hr : r ∈ rs) {b : List UInt8}
    (hb : r.encode (widthFor objects.length) = .ok b) : b.length ≤ 9 := by
  obtain ⟨o, ho, -, hrecorded⟩ := exists_of_forall₂_left h.records.flip hr
  -- all that can be reached from such a tree is a tree of this shape again
  have hpart (u w : Value) (hu : ∃ m, u = nested m) (hw : w.Part u) : ∃ m, w = nested m := by
    obtain ⟨m, rfl⟩ := hu
    cases m with
    | zero =>
      cases hw with
      | item hmem => cases hmem
    | succ m =>
      cases hw with
      | item hmem => exact ⟨m, List.mem_singleton.mp hmem⟩
  obtain ⟨w, hw, m, rfl⟩ :=
    hv.exists_of_reaches (h.reaches (List.mem_reverse.mp ho)) (M := fun w => ∃ m, w = nested m)
      ⟨n, rfl⟩ hpart
  obtain ⟨ids, hnode, hlength⟩ := Graph.exists_items_of_nested hw
  cases hrecorded with
  | scalar hnode' => cases hnode.symm.trans hnode'
  | dict hnode' => cases hnode.symm.trans hnode'
  | @array items hnode' =>
    obtain rfl := Node.array.inj (hnode.symm.trans hnode')
    obtain rfl := Except.ok.inj hb
    have hrefs : widthFor objects.length * ids.length ≤ 8 * 1 :=
      Nat.mul_le_mul (widthFor_le_eight _) hlength
    rw [List.length_append, Record.length_encodeRefs, List.length_map, Record.encodeSize,
      if_pos (by omega), List.length_singleton]
    omega

theorem length_assemble_le {refSize k : Nat} {records : List (List UInt8)}
    (h : ∀ b ∈ records, b.length ≤ k) :
    (assemble refSize records).length ≤ 40 + (k + 8) * records.length := by
  have hflatten : records.flatten.length ≤ records.length * k := by
    rw [List.length_flatten, ← List.length_map List.length]
    exact List.sum_le_card_nsmul _ _ (List.forall_mem_map.mpr h)
  have htable : (tableOf records).length ≤ 8 * records.length := by
    rw [tableOf, Record.length_encodeRefs, length_offsetsFrom]
    exact Nat.mul_le_mul_right _ (widthFor_le_eight _)
  have hheader : header.length = 8 := rfl
  rw [length_assemble, Nat.add_mul, Nat.mul_comm k]
  omega

/-- A list of 320 arrays, or more, around an empty one is too deep for the reader. -/
theorem read_nested {n : Nat} (hn : 320 ≤ n) (hv : g.Holds g.root (nested n))
    (h : Written g sortKeys objects rs bytes) (hlen : bytes.length < 0x8000000000000000) :
    read bytes = .error .tooDeep := by
  obtain ⟨negative, hsign⟩ := h.exists_zeroSign
  have hscalars : ∀ s, .scalar s ∈ rs → s.reread? = some s := by
    intro s hs
    obtain ⟨i, hi, hnode⟩ := h.exists_of_mem hs
    exact absurd (hv.mentions hi hnode) (Value.not_mentions_nested n)
  have hholds := h.exists_holds (Value.over_nested n) hv hsign
  simp only [restoredImage_eq hscalars, Value.arranged_nested, Value.mapScalars_nested] at hholds
  obtain ⟨src, hsrc, hread⟩ := h.exists_source hlen
  rw [restoredImage_eq hscalars] at hread
  have hdeep : readObject src readBudget (Array.replicate (imageOf rs).nodes.size none) 0 =
      .error .tooDeep := by
    apply readObject_nested (hsrc.matches hscalars) hholds
    · rw [readBudget]
      omega
    · intro p m _ hp
      rw [Array.getElem?_replicate, if_pos hp.lt_size]
  rw [hread, hdeep]
  rfl

/-- Such a list is written all the same, up to the limit of the writer. -/
theorem exists_write_nested {n : Nat} (hn : 320 ≤ n) (hbudget : n + 1 < numberingBudget)
    (sortKeys : Bool) : ∃ bytes, write (.ofValue (nested n)) sortKeys = .ok bytes ∧
      bytes.length < 0x8000000000000000 ∧ read bytes = .error .tooDeep := by
  have hv : (Graph.ofValue (nested n)).Holds _ (nested n) :=
    Graph.holds_ofValue (P := fun _ => True) (K := fun _ => True) (Value.over_nested n)
  have hdepth : (nested n).depth < numberingBudget := by rwa [Value.depth_nested]
  obtain ⟨bytes, hbytes⟩ := (decides_write sortKeys hv hdepth).exists_ok (Value.over_nested n)
  obtain ⟨objects, rs, hwritten⟩ := exists_written hbytes
  have hlength : bytes.length ≤ 40 + 17 * objects.length := by
    obtain ⟨bs, hbs, rfl⟩ := hwritten.encoded
    rw [← hwritten.length_eq, hbs.length_eq]
    refine length_assemble_le (k := 9) fun b hb => ?_
    obtain ⟨r, hr, hencode⟩ := exists_of_forall₂_left hbs.flip hb
    exact hwritten.length_record_le hv hr hencode
  have hobjects := hwritten.length_le_size hv
  rw [Graph.size_ofValue_nested] at hobjects
  have hlen : bytes.length < 0x8000000000000000 := by
    rw [numberingBudget] at hbudget
    omega
  exact ⟨bytes, hbytes, hlen, read_nested hn hv hwritten hlen⟩

end Binary

end PropertyList
