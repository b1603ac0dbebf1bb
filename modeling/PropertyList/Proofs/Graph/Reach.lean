/-
  PropertyList.Proofs.Graph.Reach

  The nodes of a graph that can be reached from its root.  Where a tree hangs at the
  root, its parts hang at these nodes, so what holds of a tree and passes on to its
  parts holds at all of them.
-/
import PropertyList.Proofs.Expressible
import PropertyList.Proofs.Graph.Holds

namespace PropertyList

/-! ## Parts of trees -/

namespace Value

/-- The parts of a tree: the items of an array, and the keys and values of a dictionary. -/
inductive Part : Value → Value → Prop where
  | item {items : List Value} {v : Value} (hv : v ∈ items) : Part v (.array items)
  | key {entries : List (Scalar × Value)} {e : Scalar × Value} (he : e ∈ entries) :
      Part (.scalar e.1) (.dict entries)
  | value {entries : List (Scalar × Value)} {e : Scalar × Value} (he : e ∈ entries) :
      Part e.2 (.dict entries)

namespace Part

variable {v w : Value}

theorem depth_lt (h : Part w v) : w.depth < v.depth := by
  cases h with
  | item hv => exact depth_lt_of_mem_array hv
  | key he => exact Nat.lt_of_le_of_lt (Nat.zero_le _) (depth_lt_of_mem_dict he)
  | value he => exact depth_lt_of_mem_dict he

theorem mentions (h : Part w v) {s : Scalar} (hs : w.Mentions s) : v.Mentions s := by
  cases h with
  | item hv => exact .item hv hs
  | key he =>
    obtain rfl := mentions_scalar_iff.mp hs
    exact .key he
  | value he => exact .value he hs

end Part

/-- The dictionaries of a part have keys of the same kind. -/
theorem Part.over {v w : Value} {K : List Scalar → Prop} (h : Part w v)
    (hv : v.Over (fun _ => True) K) : w.Over (fun _ => True) K := by
  cases h with
  | item hmem => exact over_array_iff.mp hv _ hmem
  | key => exact .scalar trivial
  | value he => exact (over_dict_iff.mp hv).2 _ he

end Value

namespace Graph

variable {g : Graph} {i p : Nat} {v : Value}

/-! ## Trees in graphs -/

/-- What hangs at a node does not lead back into itself. -/
theorem Holds.isTree (hv : g.Holds i v) : v.IsTree := by
  induction v using Value.induct generalizing i with
  | scalar s => exact .scalar trivial
  | array vs ih =>
    obtain ⟨ids, -, hvs⟩ := holds_array.mp hv
    refine .array fun w hw => ?_
    obtain ⟨p, -, hpw⟩ := exists_of_forall₂_left hvs.flip hw
    exact ih w hw hpw
  | dict es ih =>
    obtain ⟨ids, -, hes⟩ := holds_dict.mp hv
    refine .dict trivial fun e he => ?_
    obtain ⟨q, -, -, hvalue⟩ := exists_of_forall₂_left hes.flip he
    exact ih e he hvalue
  | back k => exact absurd hv not_holds_back

/-- At the parts of a node hang the parts of its tree. -/
theorem Holds.exists_part (hv : g.Holds i v) (hp : p ∈ (g.node i).parts) :
    ∃ w, g.Holds p w ∧ w.Part v := by
  cases v with
  | scalar s =>
    rw [node_eq_of_getElem? (holds_scalar.mp hv)] at hp
    cases hp
  | array vs =>
    obtain ⟨ids, hget, hvs⟩ := holds_array.mp hv
    rw [node_eq_of_getElem? hget] at hp
    obtain ⟨w, hw, hpw⟩ := exists_of_forall₂_left hvs hp
    exact ⟨w, hpw, .item hw⟩
  | dict es =>
    obtain ⟨ids, hget, hes⟩ := holds_dict.mp hv
    rw [node_eq_of_getElem? hget] at hp
    obtain ⟨q, hq, hpq⟩ := List.mem_flatMap.mp hp
    obtain ⟨e, he, hkey, hvalue⟩ := exists_of_forall₂_left hes hq
    rcases List.mem_pair.mp hpq with rfl | rfl
    · exact ⟨.scalar e.1, holds_scalar.mpr hkey, .key he⟩
    · exact ⟨e.2, hvalue, .value he⟩
  | back k => exact absurd hv not_holds_back

theorem Holds.eq_scalar {s : Scalar} (hv : g.Holds i v) (hs : g.node i = .scalar s) :
    v = .scalar s := by
  cases v with
  | scalar t =>
    rw [node_eq_of_getElem? (holds_scalar.mp hv)] at hs
    rw [Node.scalar.inj hs]
  | array vs =>
    obtain ⟨ids, hget, -⟩ := holds_array.mp hv
    cases (node_eq_of_getElem? hget).symm.trans hs
  | dict es =>
    obtain ⟨ids, hget, -⟩ := holds_dict.mp hv
    cases (node_eq_of_getElem? hget).symm.trans hs
  | back k => exact absurd hv not_holds_back

/-! ## What can be reached -/

/-- The nodes that can be reached from the root. -/
inductive Reaches (g : Graph) : Nat → Prop where
  | root : Reaches g g.root
  | part {i p : Nat} (h : Reaches g i) (hp : p ∈ (g.node i).parts) : Reaches g p

theorem Reaches.item {ids : List Nat} (hi : g.Reaches i) (hget : g.nodes[i]? = some (.array ids))
    (hp : p ∈ ids) : g.Reaches p := by
  refine hi.part ?_
  rw [node_eq_of_getElem? hget]
  exact hp

theorem Reaches.entry {ids : List (Nat × Nat)} {q : Nat × Nat} (hi : g.Reaches i)
    (hget : g.nodes[i]? = some (.dict ids)) (hq : q ∈ ids) : g.Reaches q.1 ∧ g.Reaches q.2 := by
  have hparts : ∀ p ∈ (Node.dict ids).parts, g.Reaches p := by
    intro p hp
    refine hi.part ?_
    rw [node_eq_of_getElem? hget]
    exact hp
  exact Node.forall_parts_dict.mp hparts q hq

/-- What holds of the tree at the root, and passes on to parts, holds at every node that can be
    reached. -/
theorem Holds.exists_of_reaches {M : Value → Prop} (hv : g.Holds g.root v) (hi : g.Reaches i)
    (hroot : M v) (hpart : ∀ u w : Value, M u → w.Part u → M w) : ∃ w, g.Holds i w ∧ M w := by
  induction hi with
  | root => exact ⟨v, hv, hroot⟩
  | part _ hp ih =>
    obtain ⟨u, hu, hM⟩ := ih
    obtain ⟨w, hw, hwu⟩ := hu.exists_part hp
    exact ⟨w, hw, hpart u w hM hwu⟩

/-- The tree mentions every scalar that can be reached. -/
theorem Holds.mentions {s : Scalar} (hv : g.Holds g.root v) (hi : g.Reaches i)
    (hs : g.node i = .scalar s) : v.Mentions s := by
  obtain ⟨w, hw, hwv⟩ := @exists_of_reaches g i v (fun w => ∀ s, w.Mentions s → v.Mentions s) hv hi
    (fun _ => id) fun u w hu hwu s hs => hu s (hwu.mentions hs)
  obtain rfl := hw.eq_scalar hs
  exact hwv s (.scalar s)

/-- A scalar that the tree mentions stands at a node that can be reached. -/
theorem Holds.exists_scalar {s : Scalar} (hv : g.Holds i v) (hi : g.Reaches i)
    (hs : v.Mentions s) : ∃ j, g.Reaches j ∧ g.node j = .scalar s := by
  induction hs generalizing i with
  | scalar s => exact ⟨i, hi, node_eq_of_getElem? (holds_scalar.mp hv)⟩
  | item hw _ ih =>
    obtain ⟨ids, hget, hvs⟩ := holds_array.mp hv
    obtain ⟨p, hp, hpw⟩ := exists_of_forall₂_left hvs.flip hw
    exact ih hpw (hi.item hget hp)
  | key he =>
    obtain ⟨ids, hget, hes⟩ := holds_dict.mp hv
    obtain ⟨q, hq, hkey, -⟩ := exists_of_forall₂_left hes.flip he
    exact ⟨q.1, (hi.entry hget hq).1, node_eq_of_getElem? hkey⟩
  | value he _ ih =>
    obtain ⟨ids, hget, hes⟩ := holds_dict.mp hv
    obtain ⟨q, hq, -, hvalue⟩ := exists_of_forall₂_left hes.flip he
    exact ih hvalue (hi.entry hget hq).2

end Graph

end PropertyList
