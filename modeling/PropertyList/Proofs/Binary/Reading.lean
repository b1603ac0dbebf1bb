/-
  PropertyList.Proofs.Binary.Reading

  Reading the objects of a binary list.  While a container is open, an empty one
  stands in its place; every other node that has been read is `Faithful`: it is
  what its record says, and its parts have been read as well.  An object that
  holds a tree is read without a fault, unless the tree is too deep.
-/
import PropertyList.Binary.Reader
import PropertyList.Proofs.Binary.Image

namespace PropertyList.Binary

/-! ## States of reading -/

/-- Whether a node has been read. -/
def Nodes.Filled (nodes : Nodes) (i : Nat) : Prop := ∃ x, nodes[i]? = some (some x)

/-- The nodes that were there stay as they are. -/
structure Keeps (nodes nodes' : Nodes) : Prop where
  size : nodes'.size = nodes.size
  get : ∀ (i : Nat) (x : Node), nodes[i]? = some (some x) → nodes'[i]? = some (some x)

namespace Keeps

theorem refl (nodes : Nodes) : Keeps nodes nodes := ⟨rfl, fun _ _ h => h⟩

theorem trans {a b c : Nodes} (hab : Keeps a b) (hbc : Keeps b c) : Keeps a c :=
  ⟨hbc.size.trans hab.size, fun i x h => hbc.get i x (hab.get i x h)⟩

theorem filled {nodes nodes' : Nodes} (h : Keeps nodes nodes') {i : Nat} (hi : nodes.Filled i) :
    nodes'.Filled i := by
  obtain ⟨x, hx⟩ := hi
  exact ⟨x, h.get i x hx⟩

/-- A node that had not been read can be set at the end. -/
theorem set {nodes nodes' : Nodes} (h : Keeps nodes nodes') {i : Nat} (hi : nodes[i]? = some none)
    (x : Node) : Keeps nodes (nodes'.setIfInBounds i (some x)) where
  size := by rw [Array.size_setIfInBounds, h.size]
  get := by
    intro j y hj
    have hne : i ≠ j := by
      rintro rfl
      rw [hi] at hj
      cases hj
    rw [Array.getElem?_setIfInBounds_ne hne]
    exact h.get j y hj

end Keeps

/-- A state of reading a given graph, while some of its containers are open. -/
structure Faithful (img : Graph) (opened : List Nat) (nodes : Nodes) : Prop where
  size : nodes.size = img.nodes.size
  closed : ∀ (i : Nat) (x : Node), nodes[i]? = some (some x) →
    i ∈ opened ∨ img.nodes[i]? = some x ∧ ∀ p ∈ x.parts, nodes.Filled p

namespace Faithful

variable {img : Graph} {opened : List Nat} {nodes : Nodes} {i : Nat} {x : Node}

/-- At the start nothing has been read. -/
theorem start (img : Graph) : Faithful img [] (Array.replicate img.nodes.size none) where
  size := Array.size_replicate
  closed := by
    intro i x h
    rw [Array.getElem?_replicate] at h
    split at h <;> cases h

theorem lt_size (h : Faithful img opened nodes) (hx : img.nodes[i]? = some x) : i < nodes.size := by
  rw [h.size]
  exact (Array.getElem?_eq_some_iff.mp hx).1

/-- A node of the graph has been read, or its place is free. -/
theorem filled_or (h : Faithful img opened nodes) (hx : img.nodes[i]? = some x) :
    nodes.Filled i ∨ nodes[i]? = some none := by
  cases hstate : nodes[i]? with
  | none =>
    rw [Array.getElem?_eq_none_iff] at hstate
    exact absurd (h.lt_size hx) (not_lt.mpr hstate)
  | some state =>
    cases state with
    | none => exact .inr rfl
    | some y => exact .inl ⟨y, hstate⟩

/-- Opening a container. -/
theorem enter (h : Faithful img opened nodes) (hi : nodes[i]? = some none) (x : Node) :
    Faithful img (i :: opened) (nodes.setIfInBounds i (some x)) where
  size := by rw [Array.size_setIfInBounds, h.size]
  closed := by
    intro j y hj
    by_cases hij : i = j
    · exact .inl (hij ▸ List.mem_cons_self)
    · rw [Array.getElem?_setIfInBounds_ne hij] at hj
      rcases h.closed j y hj with hmem | ⟨hget, hparts⟩
      · exact .inl (List.mem_cons_of_mem _ hmem)
      · exact .inr ⟨hget, fun p hp => ((Keeps.refl nodes).set hi x).filled (hparts p hp)⟩

/-- Closing a container: all its parts have been read. -/
theorem leave (h : Faithful img (i :: opened) nodes) (hx : img.nodes[i]? = some x)
    (hparts : ∀ p ∈ x.parts, nodes.Filled p) :
    Faithful img opened (nodes.setIfInBounds i (some x)) where
  size := by rw [Array.size_setIfInBounds, h.size]
  closed := by
    have hfilled {p : Nat} (hp : nodes.Filled p) : Nodes.Filled (nodes.setIfInBounds i (some x)) p := by
      obtain ⟨y, hy⟩ := hp
      by_cases hip : i = p
      · subst hip
        exact ⟨x, Array.getElem?_setIfInBounds_self_of_lt (h.lt_size hx)⟩
      · exact ⟨y, by rw [Array.getElem?_setIfInBounds_ne hip, hy]⟩
    intro j y hj
    by_cases hij : i = j
    · subst hij
      rw [Array.getElem?_setIfInBounds_self_of_lt (h.lt_size hx)] at hj
      obtain rfl := Option.some.inj (Option.some.inj hj)
      exact .inr ⟨hx, fun p hp => hfilled (hparts p hp)⟩
    · rw [Array.getElem?_setIfInBounds_ne hij] at hj
      rcases h.closed j y hj with hmem | ⟨hget, hall⟩
      · exact .inl ((List.mem_cons.mp hmem).resolve_left fun h => hij h.symm)
      · exact .inr ⟨hget, fun p hp => hfilled (hall p hp)⟩

/-- A scalar, which has no parts, is read at once. -/
theorem setScalar (h : Faithful img opened nodes) {s : Scalar}
    (hs : img.nodes[i]? = some (.scalar s)) (hi : nodes[i]? = some none) :
    Faithful img opened (nodes.setIfInBounds i (some (.scalar s))) := by
  have h' := (h.enter hi (.scalar s)).leave hs (by simp [Node.parts])
  rwa [Array.setIfInBounds_setIfInBounds] at h'

end Faithful

/-! ## Records and nodes -/

theorem Record.eq_scalar_of_node {r : Record} {s : Scalar} (h : r.node = .scalar s) :
    r = .scalar s := by
  cases r with
  | scalar t => rw [Node.scalar.inj h]
  | array items => cases h
  | dict keys values => cases h

theorem Record.eq_array_of_node {r : Record} {items : List Nat} (h : r.node = .array items) :
    r = .array items := by
  cases r with
  | scalar t => cases h
  | array items' => rw [Node.array.inj h]
  | dict keys values => cases h

theorem Record.eq_dict_of_node {r : Record} {entries : List (Nat × Nat)}
    (h : r.node = .dict entries) :
    ∃ keys values, r = .dict keys values ∧ keys.zip values = entries := by
  cases r with
  | scalar t => cases h
  | array items => cases h
  | dict keys values => exact ⟨keys, values, rfl, Node.dict.inj h⟩

/-! ## Reading one object -/

section

variable {src : Source} {budget ref : Nat} {nodes : Nodes}

theorem readObject_filled {x : Node} (h : nodes[ref]? = some (some x)) :
    readObject src (budget + 1) nodes ref = .ok nodes := by
  rw [readObject, h]

/-- An object without a record cannot be read. -/
theorem readObject_lacking (h : nodes[ref]? = some none) (hrecord : src.record? ref = none) :
    readObject src (budget + 1) nodes ref = .error .malformed := by
  rw [readObject, h]
  simp only [hrecord]

theorem readObject_scalar {s : Scalar} (h : nodes[ref]? = some none)
    (hrecord : src.record? ref = some (.scalar s)) :
    readObject src (budget + 1) nodes ref = .ok (nodes.setIfInBounds ref (some (.scalar s))) := by
  rw [readObject, h]
  simp only [hrecord]

theorem readObject_array {items : List Nat} (h : nodes[ref]? = some none)
    (hrecord : src.record? ref = some (.array items)) :
    readObject src (budget + 3) nodes ref =
      (items.foldlM (readObject src budget) (nodes.setIfInBounds ref (some (.array [])))).map
        fun nodes => nodes.setIfInBounds ref (some (.array items)) := by
  rw [readObject, h]
  simp only [hrecord]
  rfl

/-- On a budget that allows for no items, only an empty array can be read. -/
theorem readObject_array_low {items : List Nat} (h : nodes[ref]? = some none)
    (hrecord : src.record? ref = some (.array items)) (hbudget : budget < 2) :
    readObject src (budget + 1) nodes ref =
      if items.isEmpty then .ok (nodes.setIfInBounds ref (some (.array []))) else
        .error .tooDeep := by
  obtain rfl | rfl : budget = 0 ∨ budget = 1 := by omega
  all_goals
    rw [readObject, h]
    simp only [hrecord]

/-- One entry: the value is read before the key, which must turn out to be a scalar. -/
def readEntry (src : Source) (budget : Nat) (state : Nodes × List (Nat × Nat)) (entry : Nat × Nat) :
    Except ReadFault (Nodes × List (Nat × Nat)) := do
  let nodes ← readObject src budget state.1 entry.2
  let nodes ← readObject src budget nodes entry.1
  if (nodes.scalar? entry.1).isSome then .ok (nodes, nodes.setEntry state.2 entry.1 entry.2)
  else .error .malformed

theorem readObject_dict {keys values : List Nat} (h : nodes[ref]? = some none)
    (hrecord : src.record? ref = some (.dict keys values)) :
    readObject src (budget + 1) nodes ref =
      ((keys.zip values).foldlM (readEntry src budget)
        (nodes.setIfInBounds ref (some (.dict [])), [])).map
        fun state => state.1.setIfInBounds ref (some (.dict state.2)) := by
  rw [readObject, h]
  simp only [hrecord]
  rfl

end

/-! ## Reading a tree -/

section Tree

variable {src : Source} {img : Graph} {opened : List Nat} {budget : Nat}

/-- The objects of a binary list are the nodes of a graph. -/
def Matches (src : Source) (img : Graph) : Prop :=
  ∀ (i : Nat) (x : Node), img.nodes[i]? = some x → ∃ r, src.record? i = some r ∧ r.node = x

/-- Reading an object in a given state succeeds, and leads to a state in which it has been read. -/
def Readable (src : Source) (img : Graph) (opened : List Nat) (budget ref : Nat) : Prop :=
  ∀ nodes, Faithful img opened nodes → ∃ nodes', readObject src budget nodes ref = .ok nodes' ∧
    Keeps nodes nodes' ∧ Faithful img opened nodes' ∧ nodes'.Filled ref

theorem exists_foldlM_readObject {items : List Nat}
    (hread : ∀ i ∈ items, Readable src img opened budget i) {nodes : Nodes}
    (h : Faithful img opened nodes) :
    ∃ nodes', items.foldlM (readObject src budget) nodes = .ok nodes' ∧ Keeps nodes nodes' ∧
      Faithful img opened nodes' ∧ ∀ i ∈ items, nodes'.Filled i := by
  induction items generalizing nodes with
  | nil => exact ⟨nodes, rfl, .refl _, h, by simp⟩
  | cons i items ih =>
    obtain ⟨next, hnext, hkeeps, hfaithful, hfilled⟩ := hread i List.mem_cons_self nodes h
    obtain ⟨last, hlast, hkeeps', hfaithful', hall⟩ :=
      ih (fun j hj => hread j (List.mem_cons_of_mem _ hj)) hfaithful
    refine ⟨last, ?_, hkeeps.trans hkeeps', hfaithful', ?_⟩
    · rw [List.foldlM_cons, hnext]
      exact hlast
    · intro j hj
      rcases List.mem_cons.mp hj with rfl | hj
      · exact hkeeps'.filled hfilled
      · exact hall j hj

/-- The containers that are open are no scalars. -/
def OpenContainers (img : Graph) (opened : List Nat) : Prop :=
  ∀ i ∈ opened, ∀ s, img.nodes[i]? ≠ some (.scalar s)

theorem OpenContainers.cons {i : Nat} (h : OpenContainers img opened)
    (hi : ∀ s, img.nodes[i]? ≠ some (.scalar s)) : OpenContainers img (i :: opened) := by
  intro j hj
  rcases List.mem_cons.mp hj with rfl | hj
  · exact hi
  · exact h j hj

/-- A scalar that has been read is the scalar of its record. -/
theorem scalar?_of_filled {nodes : Nodes} {i : Nat} {s : Scalar} (h : Faithful img opened nodes)
    (hopened : OpenContainers img opened) (hs : img.nodes[i]? = some (.scalar s))
    (hi : nodes.Filled i) : nodes.scalar? i = some s := by
  obtain ⟨x, hx⟩ := hi
  rcases h.closed i x hx with hmem | ⟨hget, -⟩
  · exact absurd hs (hopened i hmem s)
  · obtain rfl := Option.some.inj (hget.symm.trans hs)
    rw [Nodes.scalar?, hx]

theorem setEntry_of_forall_not {nodes : Nodes} {entries : List (Nat × Nat)} {key value : Nat}
    (h : ∀ e ∈ entries, nodes.sameKey e.1 key = false) :
    nodes.setEntry entries key value = entries ++ [(key, value)] := by
  induction entries with
  | nil => rfl
  | cons e entries ih =>
    obtain ⟨k, v⟩ := e
    have hk := h (k, v) List.mem_cons_self
    rw [Nodes.setEntry, if_neg (by simp [hk]), ih fun f hf => h f (List.mem_cons_of_mem _ hf)]
    rfl

/-- Nodes with different texts are different keys. -/
theorem sameKey_of_ne {nodes : Nodes} {i j : Nat} {s t : Text} (hi : nodes.scalar? i = some (.text s))
    (hj : nodes.scalar? j = some (.text t)) (hne : s ≠ t) : nodes.sameKey i j = false := by
  have hij : (i == j) = false := by
    rw [beq_eq_false_iff_ne]
    rintro rfl
    rw [hi] at hj
    exact hne (Scalar.text.inj (Option.some.inj hj))
  rw [Nodes.sameKey, hij, hi, hj, Bool.false_or]
  show Scalar.sameKey (.text s) (.text t) = false
  rw [Scalar.sameKey_text]
  exact decide_eq_false hne

/-- Entries whose keys are different texts have different keys once they have been read. -/
theorem sameKey_of_holdsEntry {Q : Text → Prop} {nodes : Nodes} (h : Faithful img opened nodes)
    (hopened : OpenContainers img opened) {p q : Nat × Nat} {e f : Scalar × Value}
    (hp : img.HoldsEntry p e) (hq : img.HoldsEntry q f) (hfill : nodes.Filled p.1)
    (hfill' : nodes.Filled q.1) {keys : List Scalar} (hkeys : TextKeys Q keys) (he : e.1 ∈ keys)
    (hf : f.1 ∈ keys) (hne : e.1 ≠ f.1) : nodes.sameKey p.1 q.1 = false := by
  have hscalar : nodes.scalar? p.1 = some e.1 := scalar?_of_filled h hopened hp.1 hfill
  have hscalar' : nodes.scalar? q.1 = some f.1 := scalar?_of_filled h hopened hq.1 hfill'
  obtain ⟨s, hs, -⟩ := hkeys.text e.1 he
  obtain ⟨t, ht, -⟩ := hkeys.text f.1 hf
  rw [hs] at hscalar hne
  rw [ht] at hscalar' hne
  exact sameKey_of_ne hscalar hscalar' fun hst => hne (congrArg Scalar.text hst)

/-- Reading entries with distinct texts as keys gives these entries, in their order. -/
theorem exists_foldlM_readEntry {Q : Text → Prop} (hopened : OpenContainers img opened)
    {done ids : List (Nat × Nat)} {front es : List (Scalar × Value)}
    (hdone : List.Forall₂ img.HoldsEntry done front) (hids : List.Forall₂ img.HoldsEntry ids es)
    (hkeys : TextKeys Q ((front ++ es).map (·.1)))
    (hread : ∀ p ∈ ids, Readable src img opened budget p.1 ∧ Readable src img opened budget p.2)
    {nodes : Nodes} (h : Faithful img opened nodes)
    (hfront : ∀ p ∈ done, nodes.Filled p.1 ∧ nodes.Filled p.2) :
    ∃ nodes', ids.foldlM (readEntry src budget) (nodes, done) = .ok (nodes', done ++ ids) ∧
      Keeps nodes nodes' ∧ Faithful img opened nodes' ∧
      ∀ p ∈ done ++ ids, nodes'.Filled p.1 ∧ nodes'.Filled p.2 := by
  induction hids generalizing done front nodes with
  | nil =>
    rw [List.append_nil]
    exact ⟨nodes, rfl, .refl _, h, hfront⟩
  | @cons p e ids es hpe hids ih =>
    obtain ⟨hkey, hvalue⟩ := hread p List.mem_cons_self
    obtain ⟨mid, hmid, hkeeps, hfaithful, hfilled⟩ := hvalue nodes h
    obtain ⟨next, hnext, hkeeps', hfaithful', hfilled'⟩ := hkey mid hfaithful
    have hscalar : next.scalar? p.1 = some e.1 :=
      scalar?_of_filled hfaithful' hopened hpe.1 hfilled'
    -- no key before this one has the same text
    have hfresh : ∀ q ∈ done, next.sameKey q.1 p.1 = false := by
      intro q hq
      obtain ⟨f, hf, hqf⟩ := exists_of_forall₂_left hdone hq
      have hfmem : f.1 ∈ front.map (·.1) := List.mem_map_of_mem hf
      have hnodup := hkeys.nodup
      rw [List.map_append, List.nodup_append] at hnodup
      have hne : f.1 ≠ e.1 := hnodup.2.2 f.1 hfmem e.1 List.mem_cons_self
      refine sameKey_of_holdsEntry hfaithful' hopened hqf hpe ?_ hfilled' hkeys ?_ (by simp) hne
      · exact hkeeps'.filled (hkeeps.filled (hfront q hq).1)
      · rw [List.map_append]
        exact List.mem_append_left _ hfmem
    have hentry : readEntry src budget (nodes, done) p = .ok (next, done ++ [p]) := by
      rw [readEntry, hmid]
      show (readObject src budget mid p.1).bind _ = _
      rw [hnext]
      show (if (next.scalar? p.1).isSome = true then _ else _) = _
      rw [hscalar, if_pos Option.isSome_some, setEntry_of_forall_not hfresh]
    have hdone' : List.Forall₂ img.HoldsEntry (done ++ [p]) (front ++ [e]) :=
      List.rel_append hdone (.cons hpe .nil)
    have hfront' : ∀ q ∈ done ++ [p], next.Filled q.1 ∧ next.Filled q.2 := by
      intro q hq
      rcases List.mem_append.mp hq with hq | hq
      · obtain ⟨h₁, h₂⟩ := hfront q hq
        exact ⟨hkeeps'.filled (hkeeps.filled h₁), hkeeps'.filled (hkeeps.filled h₂)⟩
      · obtain rfl := List.mem_singleton.mp hq
        exact ⟨hfilled', hkeeps'.filled hfilled⟩
    have hkeys' : TextKeys Q ((front ++ [e] ++ es).map (·.1)) := by
      rw [List.append_assoc]
      exact hkeys
    obtain ⟨last, hlast, hkeeps'', hfaithful'', hall⟩ := ih hdone' hkeys'
      (fun q hq => hread q (List.mem_cons_of_mem _ hq)) hfaithful' hfront'
    rw [List.append_assoc] at hlast hall
    refine ⟨last, ?_, (hkeeps.trans hkeeps').trans hkeeps'', hfaithful'', hall⟩
    rw [List.foldlM_cons, hentry]
    exact hlast

theorem readable_scalar (hsrc : Matches src img) {i : Nat} {s : Scalar}
    (hs : img.nodes[i]? = some (.scalar s)) (hbudget : 0 < budget) :
    Readable src img opened budget i := by
  obtain ⟨b, rfl⟩ := Nat.exists_eq_succ_of_ne_zero hbudget.ne'
  intro nodes h
  rcases h.filled_or hs with ⟨x, hx⟩ | hnone
  · exact ⟨nodes, readObject_filled hx, .refl _, h, ⟨x, hx⟩⟩
  obtain ⟨r, hrecord, hr⟩ := hsrc i _ hs
  obtain rfl := Record.eq_scalar_of_node hr
  exact ⟨_, readObject_scalar hnone hrecord, (Keeps.refl _).set hnone _, h.setScalar hs hnone,
    ⟨_, Array.getElem?_setIfInBounds_self_of_lt (h.lt_size hs)⟩⟩

/-- An array can be read if its items can, while it is open. -/
theorem readable_array (hsrc : Matches src img) {i : Nat} {items : List Nat}
    (hget : img.nodes[i]? = some (.array items))
    (hread : ∀ j ∈ items, Readable src img (i :: opened) budget j) :
    Readable src img opened (budget + 3) i := by
  intro nodes h
  rcases h.filled_or hget with ⟨x, hx⟩ | hnone
  · exact ⟨nodes, readObject_filled hx, .refl _, h, ⟨x, hx⟩⟩
  obtain ⟨r, hrecord, hr⟩ := hsrc i _ hget
  obtain rfl := Record.eq_array_of_node hr
  obtain ⟨last, hlast, hkeeps, hfaithful, hall⟩ :=
    exists_foldlM_readObject hread (h.enter hnone (.array []))
  refine ⟨last.setIfInBounds i (some (.array items)), ?_, ?_, hfaithful.leave hget hall, ?_⟩
  · rw [readObject_array hnone hrecord, hlast]
    rfl
  · exact (((Keeps.refl _).set hnone _).trans hkeeps).set hnone _
  · exact ⟨_, Array.getElem?_setIfInBounds_self_of_lt (hfaithful.lt_size hget)⟩

/-- A dictionary with distinct texts as keys can be read if its parts can, while it is open. -/
theorem readable_dict {Q : Text → Prop} (hsrc : Matches src img) {i : Nat}
    {ids : List (Nat × Nat)} {es : List (Scalar × Value)} (hget : img.nodes[i]? = some (.dict ids))
    (hopened : OpenContainers img opened) (hids : List.Forall₂ img.HoldsEntry ids es)
    (hkeys : TextKeys Q (es.map (·.1)))
    (hread : ∀ p ∈ ids, Readable src img (i :: opened) budget p.1 ∧
      Readable src img (i :: opened) budget p.2) :
    Readable src img opened (budget + 1) i := by
  intro nodes h
  rcases h.filled_or hget with ⟨x, hx⟩ | hnone
  · exact ⟨nodes, readObject_filled hx, .refl _, h, ⟨x, hx⟩⟩
  obtain ⟨r, hrecord, hr⟩ := hsrc i _ hget
  obtain ⟨keys, values, rfl, hzip⟩ := Record.eq_dict_of_node hr
  have hopened' : OpenContainers img (i :: opened) := hopened.cons fun s => by simp [hget]
  -- it is entered as empty, its entries are read, and then it is put in its place
  obtain ⟨last, hlast, hkeeps, hfaithful, hall⟩ := exists_foldlM_readEntry hopened' .nil hids
    hkeys hread (h.enter hnone (.dict [])) (List.forall_mem_nil _)
  rw [List.nil_append] at hlast hall
  refine ⟨last.setIfInBounds i (some (.dict ids)), ?_, ?_, hfaithful.leave hget ?_, ?_⟩
  · rw [readObject_dict hnone hrecord, hzip, hlast]
    rfl
  · exact (((Keeps.refl _).set hnone _).trans hkeeps).set hnone _
  · exact Node.forall_parts_dict.mpr hall
  · exact ⟨_, Array.getElem?_setIfInBounds_self_of_lt (hfaithful.lt_size hget)⟩

/-- An object that holds a tree can be read, in every state, if the budget allows for its depth. -/
theorem readable_of_holds {Q : Text → Prop} (hsrc : Matches src img) {v : Value}
    (hkeys : v.Over (fun _ => True) (TextKeys Q)) {ref : Nat} (hv : img.Holds ref v)
    (hopened : OpenContainers img opened) (hbudget : 3 * v.depth < budget) :
    Readable src img opened budget ref := by
  induction hkeys generalizing ref opened budget with
  | @scalar s _ => exact readable_scalar hsrc (Graph.holds_scalar.mp hv) (by omega)
  | @array vs hvs ih =>
    obtain ⟨ids, hget, hids⟩ := Graph.holds_array.mp hv
    -- the items are read on what is left of the budget, of which an array uses up three units
    obtain ⟨b, rfl, hdepth⟩ : ∃ b, budget = b + 3 ∧ ∀ w ∈ vs, 3 * w.depth < b := by
      rw [Value.depth] at hbudget
      refine ⟨budget - 3, by omega, fun w hw => ?_⟩
      have hlt := Value.depth_lt_of_mem_array hw
      rw [Value.depth] at hlt
      omega
    have hopened' : OpenContainers img (ref :: opened) := hopened.cons fun s => by simp [hget]
    refine readable_array hsrc hget fun i hi => ?_
    obtain ⟨w, hw, hiw⟩ := exists_of_forall₂_left hids hi
    exact ih w hw hiw hopened' (hdepth w hw)
  | @dict es hkeys hes ih =>
    obtain ⟨ids, hget, hids⟩ := Graph.holds_dict.mp hv
    obtain ⟨b, rfl, hpos, hdepth⟩ : ∃ b, budget = b + 1 ∧ 0 < b ∧ ∀ e ∈ es, 3 * e.2.depth < b := by
      rw [Value.depth] at hbudget
      refine ⟨budget - 1, by omega, by omega, fun e he => ?_⟩
      have hlt := Value.depth_lt_of_mem_dict he
      rw [Value.depth] at hlt
      omega
    have hopened' : OpenContainers img (ref :: opened) := hopened.cons fun s => by simp [hget]
    refine readable_dict hsrc hget hopened hids hkeys fun p hp => ?_
    obtain ⟨e, he, hpe⟩ := exists_of_forall₂_left hids hp
    refine ⟨?_, ih e he hpe.2 hopened' (hdepth e he)⟩
    exact readable_scalar hsrc hpe.1 hpos

end Tree

end PropertyList.Binary
