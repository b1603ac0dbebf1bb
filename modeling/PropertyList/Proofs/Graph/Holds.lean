/-
  PropertyList.Proofs.Graph.Holds

  Trees inside graphs.  `Holds g i v` says that the tree `v` hangs at node `i`;
  then `v` is the only tree there, and unfolding the graph from `i` gives it.
-/
import PropertyList.Graph
import PropertyList.Proofs.Value
import Mathlib.Data.List.Perm.Subperm

namespace PropertyList

/-- The numbers of the parts of a node. -/
def Node.parts : Node → List Nat
  | .scalar _ => []
  | .array items => items
  | .dict entries => entries.flatMap fun e => [e.1, e.2]

/-- The parts of a dictionary are its keys and its values. -/
theorem Node.forall_parts_dict {entries : List (Nat × Nat)} {P : Nat → Prop} :
    (∀ p ∈ (Node.dict entries).parts, P p) ↔ ∀ e ∈ entries, P e.1 ∧ P e.2 := by
  constructor
  · intro h e he
    exact ⟨h e.1 (List.mem_flatMap.mpr ⟨e, he, List.mem_cons_self⟩),
      h e.2 (List.mem_flatMap.mpr ⟨e, he, List.mem_cons_of_mem _ List.mem_cons_self⟩)⟩
  · intro h p hp
    obtain ⟨e, he, hpe⟩ := List.mem_flatMap.mp hp
    rcases List.mem_pair.mp hpe with rfl | rfl
    · exact (h e he).1
    · exact (h e he).2

namespace Graph

/-! ## The tree at a node -/

mutual

/-- The tree `v` hangs at a node. -/
def Holds (g : Graph) : Nat → Value → Prop
  | i, .scalar s => g.nodes[i]? = some (.scalar s)
  | i, .array vs => ∃ ids, g.nodes[i]? = some (.array ids) ∧ HoldsItems g ids vs
  | i, .dict es => ∃ ids, g.nodes[i]? = some (.dict ids) ∧ HoldsEntries g ids es
  | _, .back _ => False

/-- Trees hang at the nodes of an array. -/
def HoldsItems (g : Graph) : List Nat → List Value → Prop
  | [], [] => True
  | i :: ids, v :: vs => Holds g i v ∧ HoldsItems g ids vs
  | _, _ => False

/-- Keys and trees hang at the nodes of a dictionary. -/
def HoldsEntries (g : Graph) : List (Nat × Nat) → List (Scalar × Value) → Prop
  | [], [] => True
  | (k, i) :: ids, (s, v) :: es =>
    g.nodes[k]? = some (.scalar s) ∧ Holds g i v ∧ HoldsEntries g ids es
  | _, _ => False

end

/-- A key and the tree of its value hang at the two nodes of an entry. -/
def HoldsEntry (g : Graph) (p : Nat × Nat) (e : Scalar × Value) : Prop :=
  g.nodes[p.1]? = some (.scalar e.1) ∧ g.Holds p.2 e.2

theorem holdsItems_iff {g : Graph} {ids : List Nat} {vs : List Value} :
    g.HoldsItems ids vs ↔ List.Forall₂ g.Holds ids vs := by
  induction ids generalizing vs with
  | nil => cases vs <;> simp [HoldsItems]
  | cons i ids ih => cases vs <;> simp [HoldsItems, ih]

theorem holdsEntries_iff {g : Graph} {ids : List (Nat × Nat)} {es : List (Scalar × Value)} :
    g.HoldsEntries ids es ↔ List.Forall₂ g.HoldsEntry ids es := by
  induction ids generalizing es with
  | nil => cases es <;> simp [HoldsEntries]
  | cons p ids ih =>
    obtain ⟨k, i⟩ := p
    cases es with
    | nil => simp [HoldsEntries]
    | cons e es =>
      obtain ⟨s, v⟩ := e
      simp [HoldsEntries, HoldsEntry, ih, and_assoc]

section

variable {g : Graph} {i : Nat}

theorem node_eq_of_getElem? {x : Node} (h : g.nodes[i]? = some x) : g.node i = x := by
  rw [node, h, Option.getD_some]

/-- A node that is not null is there. -/
theorem getElem?_of_node {x : Node} (h : g.node i = x) (hx : x ≠ .scalar .null) :
    g.nodes[i]? = some x := by
  rw [node] at h
  cases hget : g.nodes[i]? with
  | none =>
    rw [hget] at h
    exact absurd h.symm hx
  | some y =>
    rw [hget] at h
    exact congrArg some h

theorem scalarAt_eq_of_getElem? {s : Scalar} (h : g.nodes[i]? = some (.scalar s)) :
    g.scalarAt i = s := by
  rw [scalarAt, node_eq_of_getElem? h]

theorem holds_scalar {s : Scalar} : g.Holds i (.scalar s) ↔ g.nodes[i]? = some (.scalar s) := by
  rw [Holds]

theorem holds_array {vs : List Value} : g.Holds i (.array vs) ↔
    ∃ ids, g.nodes[i]? = some (.array ids) ∧ List.Forall₂ g.Holds ids vs := by
  simp only [Holds, holdsItems_iff]

theorem holds_dict {es : List (Scalar × Value)} : g.Holds i (.dict es) ↔
    ∃ ids, g.nodes[i]? = some (.dict ids) ∧ List.Forall₂ g.HoldsEntry ids es := by
  simp only [Holds, holdsEntries_iff]

theorem not_holds_back {k : Nat} : ¬ g.Holds i (.back k) := by
  simp [Holds]

theorem Holds.lt_size {v : Value} (h : g.Holds i v) : i < g.nodes.size := by
  have hget : ∃ x, g.nodes[i]? = some x := by
    cases v with
    | scalar s => exact ⟨_, holds_scalar.mp h⟩
    | array vs => exact ⟨_, (holds_array.mp h).choose_spec.1⟩
    | dict es => exact ⟨_, (holds_dict.mp h).choose_spec.1⟩
    | back k => exact absurd h not_holds_back
  obtain ⟨x, hx⟩ := hget
  exact (Array.getElem?_eq_some_iff.mp hx).1

end

/-- Two lists that match the same list position by position are equal, if what matches an item of
    it is unique. -/
theorem eq_of_forall₂_right {α β : Type} {R : α → β → Prop} {as : List α} {bs cs : List β}
    (hb : List.Forall₂ R as bs) (hc : List.Forall₂ R as cs)
    (huniq : ∀ b ∈ bs, ∀ a c, R a b → R a c → b = c) : bs = cs := by
  induction hb generalizing cs with
  | nil =>
    cases hc
    rfl
  | cons hab _ ih =>
    cases hc with
    | cons hac hcs =>
      rw [huniq _ List.mem_cons_self _ _ hab hac]
      rw [ih hcs fun b hb => huniq b (List.mem_cons_of_mem _ hb)]

/-- There is at most one tree at a node. -/
theorem Holds.unique {g : Graph} {i : Nat} {v w : Value} (hv : g.Holds i v) (hw : g.Holds i w) :
    v = w := by
  induction v using Value.induct generalizing i w with
  | scalar s =>
    rw [holds_scalar] at hv
    -- the node decides the kind of the tree
    cases w with
    | scalar t => simpa [hv] using holds_scalar.mp hw
    | array ws => simp [holds_array, hv] at hw
    | dict fs => simp [holds_dict, hv] at hw
    | back k => exact absurd hw not_holds_back
  | array vs ih =>
    obtain ⟨ids, hget, hvs⟩ := holds_array.mp hv
    cases w with
    | scalar t => simp [holds_scalar, hget] at hw
    | array ws =>
      obtain ⟨ids', hget', hws⟩ := holds_array.mp hw
      obtain rfl : ids = ids' := by simpa [hget] using hget'
      rw [eq_of_forall₂_right hvs hws fun v hv a c hav hac => ih v hv hav hac]
    | dict fs => simp [holds_dict, hget] at hw
    | back k => exact absurd hw not_holds_back
  | dict es ih =>
    obtain ⟨ids, hget, hes⟩ := holds_dict.mp hv
    cases w with
    | scalar t => simp [holds_scalar, hget] at hw
    | array ws => simp [holds_array, hget] at hw
    | dict fs =>
      obtain ⟨ids', hget', hfs⟩ := holds_dict.mp hw
      obtain rfl : ids = ids' := by simpa [hget] using hget'
      rw [eq_of_forall₂_right hes hfs fun e he a f hae haf => ?_]
      have hkey : e.1 = f.1 := by simpa [hae.1] using haf.1
      exact Prod.ext hkey (ih e he hae.2 haf.2)
    | back k => exact absurd hw not_holds_back
  | back k => exact absurd hv not_holds_back

/-! ## Unfolding -/

/-- Distinct numbers below a bound are at most as many as the bound. -/
theorem length_le_of_nodup {l : List Nat} {n : Nat} (hnodup : l.Nodup) (hlt : ∀ i ∈ l, i < n) :
    l.length ≤ n := by
  have h := (List.subperm_of_subset hnodup fun i hi => List.mem_range.mpr (hlt i hi)).length_le
  rwa [List.length_range] at h

/-- A tree hangs at no node inside itself. -/
theorem Holds.ne_of_depth_lt {g : Graph} {i j : Nat} {v w : Value} (hv : g.Holds i v)
    (hw : g.Holds j w) (h : v.depth < w.depth) : i ≠ j := by
  rintro rfl
  rw [hv.unique hw] at h
  exact Nat.lt_irrefl _ h

/-- The state of unfolding: the containers on the way are distinct, each of them holds a deeper
    tree than what is still to come, and there is fuel for all of them. -/
structure OnPath (g : Graph) (fuel : Nat) (path : List Nat) (v : Value) : Prop where
  nodup : path.Nodup
  holds : ∀ j ∈ path, ∃ w, g.Holds j w ∧ v.depth < w.depth
  fuel : g.nodes.size + 2 ≤ fuel + path.length

namespace OnPath

variable {g : Graph} {fuel : Nat} {path : List Nat} {v : Value} {i : Nat}

theorem exists_fuel (h : g.OnPath fuel path v) : ∃ n, fuel = n + 1 := by
  have hlen : path.length ≤ g.nodes.size := length_le_of_nodup h.nodup fun j hj => by
    obtain ⟨w, hw, -⟩ := h.holds j hj
    exact hw.lt_size
  have hfuel := h.fuel
  exact ⟨fuel - 1, by omega⟩

theorem not_mem (h : g.OnPath fuel path v) (hv : g.Holds i v) : i ∉ path := by
  intro hi
  obtain ⟨w, hw, hlt⟩ := h.holds i hi
  exact hv.ne_of_depth_lt hw hlt rfl

/-- Going down into a part of the tree. -/
theorem down {n : Nat} {w : Value} (h : g.OnPath (n + 1) path v) (hv : g.Holds i v)
    (hw : w.depth < v.depth) : g.OnPath n (i :: path) w where
  nodup := List.nodup_cons.mpr ⟨h.not_mem hv, h.nodup⟩
  holds := by
    intro j hj
    rcases List.mem_cons.mp hj with rfl | hj
    · exact ⟨v, hv, hw⟩
    · obtain ⟨u, hu, hlt⟩ := h.holds j hj
      exact ⟨u, hu, Nat.lt_trans hw hlt⟩
  fuel := by
    have hfuel := h.fuel
    rw [List.length_cons]
    omega

end OnPath

/-- Mapping over what matches a list position by position gives that list. -/
theorem map_eq_of_forall₂ {α β : Type} {R : α → β → Prop} {f : α → β} {as : List α} {bs : List β}
    (h : List.Forall₂ R as bs) (hf : ∀ a b, b ∈ bs → R a b → f a = b) : as.map f = bs := by
  induction h with
  | nil => rfl
  | cons hab _ ih =>
    rw [List.map_cons, hf _ _ List.mem_cons_self hab]
    rw [ih fun a b hb => hf a b (List.mem_cons_of_mem _ hb)]

/-- An array that is not inside itself is unfolded item by item. -/
theorem unfold_array {g : Graph} {i fuel : Nat} {path items : List Nat}
    (hnode : g.node i = .array items) (hi : i ∉ path) :
    g.unfold (fuel + 1) path i = .array (items.map (g.unfold fuel (i :: path))) := by
  rw [unfold, hnode]
  simp only [List.idxOf?_eq_none_iff.mpr hi]

/-- A dictionary that is not inside itself is unfolded entry by entry. -/
theorem unfold_dict {g : Graph} {i fuel : Nat} {path : List Nat} {entries : List (Nat × Nat)}
    (hnode : g.node i = .dict entries) (hi : i ∉ path) : g.unfold (fuel + 1) path i =
      .dict (entries.map fun e => (g.scalarAt e.1, g.unfold fuel (i :: path) e.2)) := by
  rw [unfold, hnode]
  simp only [List.idxOf?_eq_none_iff.mpr hi]

/-- Unfolding from a node gives the tree at that node. -/
theorem Holds.unfold_eq {g : Graph} {i fuel : Nat} {path : List Nat} {v : Value}
    (hv : g.Holds i v) (hpath : g.OnPath fuel path v) : g.unfold fuel path i = v := by
  induction v using Value.induct generalizing i fuel path with
  | scalar s =>
    obtain ⟨n, rfl⟩ := hpath.exists_fuel
    rw [unfold, node_eq_of_getElem? (holds_scalar.mp hv)]
  | array vs ih =>
    obtain ⟨n, rfl⟩ := hpath.exists_fuel
    obtain ⟨ids, hget, hvs⟩ := holds_array.mp hv
    -- the node is not on the way to itself, so the unfolding goes on
    rw [unfold_array (node_eq_of_getElem? hget) (hpath.not_mem hv)]
    congr 1
    exact map_eq_of_forall₂ hvs fun a w hw haw =>
      ih w hw haw (hpath.down hv (Value.depth_lt_of_mem_array hw))
  | dict es ih =>
    obtain ⟨n, rfl⟩ := hpath.exists_fuel
    obtain ⟨ids, hget, hes⟩ := holds_dict.mp hv
    rw [unfold_dict (node_eq_of_getElem? hget) (hpath.not_mem hv)]
    congr 1
    exact map_eq_of_forall₂ hes fun p e he hpe => by
      rw [scalarAt_eq_of_getElem? hpe.1]
      rw [ih e he hpe.2 (hpath.down hv (Value.depth_lt_of_mem_dict he))]
  | back k => exact absurd hv not_holds_back

/-- The tree of a graph is the tree at its root. -/
theorem Holds.value_eq {g : Graph} {v : Value} (h : g.Holds g.root v) : g.value = v := by
  refine h.unfold_eq ⟨List.nodup_nil, ?_, ?_⟩
  · simp
  · simp

end Graph

end PropertyList
