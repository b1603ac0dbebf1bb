/-
  PropertyList.Proofs.Graph.Unfolding

  How a graph unfolds below its containers, and the keys of its dictionaries.  Where
  unfolding is not cut off, it goes on below every container, so what holds of the keys
  in the tree holds of every dictionary of the graph, and no others are in the tree.
-/
import PropertyList.Proofs.Graph.Reach

namespace PropertyList

namespace Graph

variable {g : Graph} {i fuel : Nat} {path : List Nat}

/-! ## The way down -/

/-- The state of unfolding any graph: the containers on the way are distinct nodes of it, and there
    is fuel for all of them. -/
structure OnWay (g : Graph) (fuel : Nat) (path : List Nat) : Prop where
  nodup : path.Nodup
  lt_size : ∀ j ∈ path, j < g.nodes.size
  fuel : g.nodes.size + 2 ≤ fuel + path.length

namespace OnWay

theorem start (g : Graph) : g.OnWay (g.nodes.size + 2) [] :=
  ⟨List.nodup_nil, List.forall_mem_nil _, Nat.le_refl _⟩

theorem pos (h : g.OnWay fuel path) : 0 < fuel := by
  have hlen := length_le_of_nodup h.nodup h.lt_size
  have hfuel := h.fuel
  omega

theorem down (h : g.OnWay (fuel + 1) path) (hi : i < g.nodes.size) (hnot : i ∉ path) :
    g.OnWay fuel (i :: path) where
  nodup := List.nodup_cons.mpr ⟨hnot, h.nodup⟩
  lt_size := List.forall_mem_cons.mpr ⟨hi, h.lt_size⟩
  fuel := by
    have hfuel := h.fuel
    rw [List.length_cons]
    omega

end OnWay

section Containers

variable {P : Scalar → Prop} {K : List Scalar → Prop} {items : List Nat}
  {entries : List (Nat × Nat)}

/-- A container inside itself is cut off. -/
theorem exists_unfold_eq_back (hnode : ∀ s, g.node i ≠ .scalar s) (hi : i ∈ path) :
    ∃ k, g.unfold (fuel + 1) path i = .back k := by
  obtain ⟨k, hk⟩ : ∃ k, path.idxOf? i = some k := by
    rw [← Option.isSome_iff_exists, List.isSome_idxOf?]
    exact hi
  refine ⟨k + 1, ?_⟩
  rw [unfold]
  cases hx : g.node i with
  | scalar s => exact absurd hx (hnode s)
  | array items => simp only [hk]
  | dict entries => simp only [hk]

/-- An unfolding that is not cut off goes on below an array. -/
theorem over_unfold_array_iff (hnode : g.node i = .array items) :
    (g.unfold (fuel + 1) path i).Over P K ↔
      i ∉ path ∧ ∀ p ∈ items, (g.unfold fuel (i :: path) p).Over P K := by
  by_cases hi : i ∈ path
  · obtain ⟨k, hback⟩ := @exists_unfold_eq_back g i fuel path (by rw [hnode]; rintro s ⟨⟩) hi
    rw [hback]
    exact iff_of_false Value.not_over_back fun h => h.1 hi
  · rw [unfold_array hnode hi, Value.over_array_iff, List.forall_mem_map, and_iff_right hi]

/-- An unfolding that is not cut off goes on below a dictionary. -/
theorem over_unfold_dict_iff (hnode : g.node i = .dict entries) :
    (g.unfold (fuel + 1) path i).Over P K ↔
      i ∉ path ∧ K (entries.map fun e => g.scalarAt e.1) ∧
        ∀ e ∈ entries, (g.unfold fuel (i :: path) e.2).Over P K := by
  by_cases hi : i ∈ path
  · obtain ⟨k, hback⟩ := @exists_unfold_eq_back g i fuel path (by rw [hnode]; rintro s ⟨⟩) hi
    rw [hback]
    exact iff_of_false Value.not_over_back fun h => h.1 hi
  · rw [unfold_dict hnode hi, Value.over_dict_iff, List.map_map, List.forall_mem_map,
      and_iff_right hi]
    rfl

end Containers

/-! ## Keys -/

/-- The nodes of the values of a graph.  Keys are not among them. -/
inductive Visits (g : Graph) : Nat → Prop where
  | root : Visits g g.root
  | item {i p : Nat} {items : List Nat} (h : Visits g i) (hnode : g.node i = .array items)
      (hp : p ∈ items) : Visits g p
  | value {i : Nat} {entries : List (Nat × Nat)} {q : Nat × Nat} (h : Visits g i)
      (hnode : g.node i = .dict entries) (hq : q ∈ entries) : Visits g q.2

/-- Some dictionary of the graph has these keys, in this order. -/
def ListsKeys (g : Graph) (keys : List Scalar) : Prop :=
  ∃ i entries, g.Visits i ∧ g.node i = .dict entries ∧ entries.map (fun e => g.scalarAt e.1) = keys

theorem Visits.reaches (h : g.Visits i) : g.Reaches i := by
  induction h with
  | root => exact .root
  | item _ hnode hp ih =>
    refine ih.part ?_
    rw [hnode]
    exact hp
  | value _ hnode hq ih =>
    refine ih.part ?_
    rw [hnode]
    exact List.mem_flatMap.mpr ⟨_, hq, List.mem_cons_of_mem _ List.mem_cons_self⟩

section Keys

variable {P : Scalar → Prop} {K : List Scalar → Prop}

theorem lt_size_of_node {x : Node} (hnode : g.node i = x) (hx : x ≠ .scalar .null) :
    i < g.nodes.size := (Array.getElem?_eq_some_iff.mp (getElem?_of_node hnode hx)).1

/-- Every value of the graph is unfolded somewhere. -/
theorem Visits.exists_unfold (h : g.Visits i) (hover : g.value.Over P K) :
    ∃ fuel path, g.OnWay (fuel + 1) path ∧ (g.unfold (fuel + 1) path i).Over P K := by
  have hsucc {i fuel : Nat} {path : List Nat} (hway : g.OnWay fuel path)
      (h : (g.unfold fuel path i).Over P K) :
      ∃ fuel path, g.OnWay (fuel + 1) path ∧ (g.unfold (fuel + 1) path i).Over P K := by
    obtain ⟨n, rfl⟩ := Nat.exists_eq_succ_of_ne_zero (Nat.pos_iff_ne_zero.mp hway.pos)
    exact ⟨n, path, hway, h⟩
  induction h with
  | root => exact ⟨_, _, .start g, hover⟩
  | item _ hnode hp ih =>
    obtain ⟨fuel, path, hway, hunfold⟩ := ih
    obtain ⟨hi, hitems⟩ := (over_unfold_array_iff hnode).mp hunfold
    exact hsucc (hway.down (lt_size_of_node hnode (by rintro ⟨⟩)) hi) (hitems _ hp)
  | value _ hnode hq ih =>
    obtain ⟨fuel, path, hway, hunfold⟩ := ih
    obtain ⟨hi, -, hentries⟩ := (over_unfold_dict_iff hnode).mp hunfold
    exact hsucc (hway.down (lt_size_of_node hnode (by rintro ⟨⟩)) hi) (hentries _ hq)

/-- What holds of the keys in the tree holds of the keys of every dictionary. -/
theorem ListsKeys.of_over {keys : List Scalar} (h : g.ListsKeys keys)
    (hover : g.value.Over P K) : K keys := by
  obtain ⟨i, entries, hi, hnode, rfl⟩ := h
  obtain ⟨fuel, path, -, hunfold⟩ := hi.exists_unfold hover
  exact ((over_unfold_dict_iff hnode).mp hunfold).2.1

/-- The keys in the tree are those of dictionaries of the graph. -/
theorem over_listsKeys (hover : g.value.Over P K) :
    g.value.Over P fun keys => K keys ∧ g.ListsKeys keys := by
  have hunfold (fuel : Nat) {path : List Nat} {i : Nat} (hi : g.Visits i)
      (h : (g.unfold fuel path i).Over P K) :
      (g.unfold fuel path i).Over P fun keys => K keys ∧ g.ListsKeys keys := by
    induction fuel generalizing path i with
    | zero => exact .scalar (Value.over_scalar_iff.mp h)
    | succ n ih =>
      cases hnode : g.node i with
      | scalar s =>
        rw [unfold, hnode] at h ⊢
        exact .scalar (Value.over_scalar_iff.mp h)
      | array items =>
        rw [over_unfold_array_iff hnode] at h ⊢
        exact ⟨h.1, fun p hp => ih (hi.item hnode hp) (h.2 p hp)⟩
      | dict entries =>
        rw [over_unfold_dict_iff hnode] at h ⊢
        obtain ⟨hpath, hkeys, hentries⟩ := h
        exact ⟨hpath, ⟨hkeys, i, entries, hi, hnode, rfl⟩,
          fun e he => ih (hi.value hnode he) (hentries e he)⟩
  exact hunfold _ .root hover

end Keys

end Graph

end PropertyList
