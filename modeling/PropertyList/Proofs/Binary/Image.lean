/-
  PropertyList.Proofs.Binary.Image

  The records of a graph as a graph again.  Its nodes are the objects by their
  numbers, so equal scalars have become one node.  It holds the same tree as the
  graph that was written, with the entries in the order of the records; only zeros,
  which are one object, have all got the sign of the first of them.
-/
import PropertyList.Proofs.Binary.Objects
import PropertyList.Proofs.Value.Scalars

namespace PropertyList

/-! ## Identities -/

namespace Binary64

/-- Zeros are the same number, whatever their sign. -/
theorem same_of_zero {x y : Binary64} (hx : x.magnitude = 0) (hy : y.magnitude = 0) : x.Same y := by
  have hzero {z : Binary64} (hz : z.magnitude = 0) :
      z.isNaN = false ∧ z.isFinite = true ∧ z.signedSignificand = 0 := by
    rw [isNaN, isFinite, signedSignificand, significand, exponentField, fraction, hz]
    refine ⟨by decide, by decide, ?_⟩
    split <;> rfl
  obtain ⟨hnan, hfin, hsig⟩ := hzero hx
  obtain ⟨hnan', hfin', hsig'⟩ := hzero hy
  refine .inl ?_
  rw [compare?, hnan, hnan', hfin, hfin', hsig, hsig', compareDyadic]
  simp

theorem magnitude_zero (negative : Bool) : (ofMagnitude negative 0).magnitude = 0 :=
  magnitude_ofMagnitude (by decide)

end Binary64

namespace Scalar

/-- A scalar as equality sees it: a zero has no sign. -/
def unsignedZero : Scalar → Scalar
  | real x => if x.magnitude = 0 then real (.ofMagnitude false 0) else real x
  | s => s

theorem same_of_unsignedZero {s t : Scalar} (h : s.unsignedZero = t.unsignedZero) : s.Same t := by
  -- two reals agree in this if they are equal, or if both are zero
  have hreal {x y : Binary64} (h : (real x).unsignedZero = (real y).unsignedZero) : x.Same y := by
    have hzero := Binary64.magnitude_zero false
    rw [unsignedZero, unsignedZero] at h
    by_cases hx : x.magnitude = 0
    · by_cases hy : y.magnitude = 0
      · exact Binary64.same_of_zero hx hy
      · rw [if_pos hx, if_neg hy] at h
        obtain rfl := real.inj h
        exact absurd hzero hy
    · by_cases hy : y.magnitude = 0
      · rw [if_neg hx, if_pos hy] at h
        obtain rfl := real.inj h
        exact absurd hzero hx
      · rw [if_neg hx, if_neg hy] at h
        obtain rfl := real.inj h
        exact Binary64.same_refl x
  -- a real stays a real, so scalars of different kinds are told apart
  have hkind (x : Binary64) : ∃ y, (real x).unsignedZero = real y := by
    rw [unsignedZero]
    split
    · exact ⟨_, rfl⟩
    · exact ⟨_, rfl⟩
  cases s with
  | real x =>
    cases t with
    | real y => exact hreal h
    | _ =>
      obtain ⟨y, hy⟩ := hkind x
      rw [hy] at h
      cases h
  | _ =>
    cases t with
    | real y =>
      obtain ⟨z, hz⟩ := hkind y
      rw [hz] at h
      cases h
    | _ => exact h

theorem same_text {s : Scalar} {t : Text} (h : s.Same (.text t)) : s = .text t := by
  cases s with
  | text u => exact h
  | _ => cases h

/-- A scalar with a given sign if it is a zero. -/
def withZero (negative : Bool) : Scalar → Scalar
  | real x => if x.magnitude = 0 then real (.ofMagnitude negative 0) else real x
  | s => s

theorem withZero_same (negative : Bool) (s : Scalar) : (s.withZero negative).Same s := by
  cases s with
  | real x =>
    rw [withZero]
    split
    · next hx => exact Binary64.same_of_zero (Binary64.magnitude_zero negative) hx
    · exact Binary64.same_refl x
  | _ => exact same_refl _

/-- A zero that has the sign stays as it is, and so does everything else. -/
theorem withZero_eq_self {negative : Bool} {s : Scalar}
    (h : ∀ x, s = .real x → x.magnitude = 0 → x.isNegative = negative) :
    s.withZero negative = s := by
  cases s with
  | real x =>
    rw [withZero]
    split
    · next hx => rw [← h x rfl hx, ← hx, Binary64.ofMagnitude_eta]
    · rfl
  | _ => rfl

theorem withZero_unsignedZero (negative : Bool) (s : Scalar) :
    s.unsignedZero.withZero negative = s.withZero negative := by
  cases s with
  | real x =>
    by_cases hx : x.magnitude = 0
    · rw [unsignedZero, if_pos hx, withZero, withZero, if_pos hx,
        if_pos (Binary64.magnitude_zero false)]
    · rw [unsignedZero, if_neg hx]
  | _ => rfl

/-- Of scalars that are equal, the one is the other with the sign that a zero has in it. -/
theorem eq_withZero {s t : Scalar} (h : s.unsignedZero = t.unsignedZero) {negative : Bool}
    (hs : ∀ x, s = .real x → x.magnitude = 0 → x.isNegative = negative) :
    s = t.withZero negative := by
  rw [← withZero_unsignedZero, ← h, withZero_unsignedZero, withZero_eq_self hs]

end Scalar

namespace Binary

variable {g : Graph} {sortKeys : Bool} {objects : Numbering} {rs : List Record}

theorem identity_of_array {i : Nat} {items : List Nat} (h : g.node i = .array items) :
    identity g i = .node i := by
  rw [identity, h]

theorem identity_of_dict {i : Nat} {entries : List (Nat × Nat)} (h : g.node i = .dict entries) :
    identity g i = .node i := by
  rw [identity, h]

/-- A node that is an object of its own is this node and no other. -/
theorem eq_of_identity_node {i k : Nat} (h : identity g i = .node k) : i = k := by
  unfold identity at h
  split at h
  · exact Identity.node.inj h
  · split at h
    · exact Identity.node.inj h
    · split at h <;> cases h
  · cases h
  · exact Identity.node.inj h

theorem exists_of_identity_value {i : Nat} {t : Scalar} (h : identity g i = .value t) :
    ∃ s, g.node i = .scalar s ∧ s.unsignedZero = t := by
  unfold identity at h
  split at h
  · cases h
  -- a real that is a number: a zero has lost its sign
  next x hx =>
    refine ⟨_, hx, ?_⟩
    rw [Scalar.unsignedZero]
    split at h
    · cases h
    · split at h
      next hzero =>
        rw [if_pos hzero]
        exact Identity.value.inj h
      next hzero =>
        rw [if_neg hzero]
        exact Identity.value.inj h
  -- all other scalars but UIDs are their own identity
  next s huid hreal hs =>
    refine ⟨s, hs, ?_⟩
    rw [← Identity.value.inj h]
    cases s with
    | real x => exact absurd rfl (hreal x)
    | _ => rfl
  · cases h

/-- Two nodes that are one object are one node, or hold equal scalars. -/
theorem eq_or_scalar_of_identity_eq {i j : Nat} (h : identity g i = identity g j) :
    i = j ∨ ∃ s t, g.node i = .scalar s ∧ g.node j = .scalar t ∧
      s.unsignedZero = t.unsignedZero := by
  cases hj : identity g j with
  | node k =>
    rw [hj] at h
    exact .inl ((eq_of_identity_node h).trans (eq_of_identity_node hj).symm)
  | value u =>
    rw [hj] at h
    obtain ⟨s, hs, hsu⟩ := exists_of_identity_value h
    obtain ⟨t, ht, htu⟩ := exists_of_identity_value hj
    exact .inr ⟨s, t, hs, ht, hsu.trans htu.symm⟩

/-! ## Records -/

theorem exists_number? {i : Nat} (h : identity g i ∈ objects.identities) :
    objects.number? (identity g i) = some (refOf g objects i) := by
  obtain ⟨k, hk⟩ := Option.isSome_iff_exists.mp (Numbering.number?_isSome.mpr h)
  rw [refOf, hk, Option.getD_some]

theorem refOf_lt {i : Nat} (h : identity g i ∈ objects.identities) :
    refOf g objects i < objects.length :=
  Numbering.number?_lt (exists_number? h)

/-- The object at a node stands at the place that its number says. -/
theorem exists_object {i : Nat} (h : identity g i ∈ objects.identities) :
    ∃ o, objects.reverse[refOf g objects i]? = some o ∧ o.identity = identity g i :=
  Numbering.exists_of_number? (exists_number? h)

/-- The record of a node: the node with the numbers of its parts, which are all in the list. -/
inductive Recorded (g : Graph) (sortKeys : Bool) (objects : Numbering) (i : Nat) : Record → Prop where
  | scalar {s : Scalar} (hnode : g.node i = .scalar s) : Recorded g sortKeys objects i (.scalar s)
  | array {items : List Nat} (hnode : g.node i = .array items)
      (hparts : ∀ p ∈ items, identity g p ∈ objects.identities) :
      Recorded g sortKeys objects i (.array (items.map (refOf g objects)))
  | dict {entries es : List (Nat × Nat)} (hnode : g.node i = .dict entries)
      (hordered : orderedEntries g sortKeys entries = .ok es)
      (hparts : ∀ e ∈ es, identity g e.1 ∈ objects.identities ∧ identity g e.2 ∈ objects.identities) :
      Recorded g sortKeys objects i
        (.dict (es.map fun e => refOf g objects e.1) (es.map fun e => refOf g objects e.2))

/-- A complete object has a record. -/
theorem exists_recorded {o : Numbered} (h : Complete g sortKeys objects o) :
    ∃ r, recordOf g sortKeys objects o.node = .ok r ∧ Recorded g sortKeys objects o.node r := by
  obtain ⟨parts, hparts, hall⟩ := h
  unfold recordOf
  cases hnode : g.node o.node with
  | scalar s => exact ⟨_, rfl, .scalar hnode⟩
  | array items =>
    rw [hnode] at hparts
    obtain rfl := Except.ok.inj hparts
    exact ⟨_, rfl, .array hnode hall⟩
  | dict entries =>
    rw [hnode, listedParts] at hparts
    obtain ⟨es, hordered, rfl⟩ := exists_of_map_eq_ok hparts
    simp only [hordered]
    refine ⟨_, rfl, .dict hnode hordered fun e he => ⟨?_, ?_⟩⟩
    · exact hall e.1 (List.mem_append_left _ (List.mem_map_of_mem he))
    · exact hall e.2 (List.mem_append_right _ (List.mem_map_of_mem he))

/-- The numbers in a record fit a width in which the objects can be counted. -/
theorem Recorded.fits {i refSize : Nat} {r : Record} (h : Recorded g sortKeys objects i r)
    (hsize : objects.length ≤ 256 ^ refSize) : r.Fits refSize := by
  have hlt {p : Nat} (hp : identity g p ∈ objects.identities) : refOf g objects p < 256 ^ refSize :=
    Nat.lt_of_lt_of_le (refOf_lt hp) hsize
  cases h with
  | scalar => exact trivial
  | array hnode hparts =>
    intro j hj
    obtain ⟨p, hp, rfl⟩ := List.mem_map.mp hj
    exact hlt (hparts p hp)
  | @dict entries es hnode hordered hparts =>
    refine ⟨?_, ?_, ?_⟩
    · rw [List.length_map, List.length_map]
    · intro j hj
      obtain ⟨e, he, rfl⟩ := List.mem_map.mp hj
      exact hlt (hparts e he).1
    · intro j hj
      obtain ⟨e, he, rfl⟩ := List.mem_map.mp hj
      exact hlt (hparts e he).2

theorem Recorded.exists_encode (refSize : Nat) {i : Nat} {r : Record} (h : Recorded g sortKeys objects i r)
    (hstorable : ∀ s, g.node i = .scalar s → s.IsStorable) : ∃ b, r.encode refSize = .ok b := by
  refine Record.exists_encode fun s hs => ?_
  cases h with
  | scalar hnode =>
    obtain rfl := Record.scalar.inj hs
    exact hstorable _ hnode
  | array => cases hs
  | dict => cases hs

/-- The records of objects with storable scalars can be written. -/
theorem exists_encoded (refSize : Nat) {os : List Numbered} {rs : List Record}
    (hrecords : List.Forall₂ (fun o r => Recorded g sortKeys objects o.node r) os rs)
    (hstorable : ∀ o ∈ os, ∀ s, g.node o.node = .scalar s → s.IsStorable) :
    ∃ bs, List.Forall₂ (fun r b => r.encode refSize = .ok b) rs bs := by
  induction hrecords with
  | nil => exact ⟨[], .nil⟩
  | @cons o r os rs hor _ ih =>
    obtain ⟨b, hb⟩ := hor.exists_encode refSize (hstorable o List.mem_cons_self)
    obtain ⟨bs, hbs⟩ := ih fun p hp => hstorable p (List.mem_cons_of_mem _ hp)
    exact ⟨b :: bs, .cons hb hbs⟩

/-- Objects that all have a record with bytes are encoded as these bytes. -/
theorem encodeObjects_of_forall₂ {refSize : Nat} {os : List Numbered} {bs : List (List UInt8)}
    (hrecords : List.Forall₂ (fun o r => recordOf g sortKeys objects o.node = .ok r) os rs)
    (hbytes : List.Forall₂ (fun r b => r.encode refSize = .ok b) rs bs) :
    encodeObjects g sortKeys refSize objects os = .ok bs := by
  induction hrecords generalizing bs with
  | nil =>
    cases hbytes
    rfl
  | @cons o r os rs hor _ ih =>
    cases hbytes with
    | cons hrb hbs =>
      rw [encodeObjects, hor]
      show ((r.encode refSize).mapError WriteFault.record).bind _ = _
      rw [hrb]
      show (encodeObjects g sortKeys refSize objects os).bind _ = _
      rw [ih hbs]
      rfl

/-- The records of the objects, in the order of their numbers. -/
structure Records (g : Graph) (sortKeys : Bool) (objects : Numbering) (rs : List Record) : Prop
    extends AllNumbers g sortKeys objects where
  records : List.Forall₂ (fun o r => recordOf g sortKeys objects o.node = .ok r ∧
    Recorded g sortKeys objects o.node r) objects.reverse rs

theorem exists_records (h : AllNumbers g sortKeys objects) : ∃ rs, Records g sortKeys objects rs := by
  have hex : ∀ os : List Numbered, (∀ o ∈ os, o ∈ objects) → ∃ rs, List.Forall₂ (fun o r =>
      recordOf g sortKeys objects o.node = .ok r ∧ Recorded g sortKeys objects o.node r) os rs := by
    intro os hos
    induction os with
    | nil => exact ⟨[], .nil⟩
    | cons o os ih =>
      obtain ⟨r, hr⟩ := exists_recorded (h.complete o (hos o List.mem_cons_self))
      obtain ⟨rs, hrs⟩ := ih fun p hp => hos p (List.mem_cons_of_mem _ hp)
      exact ⟨r :: rs, .cons hr hrs⟩
  obtain ⟨rs, hrs⟩ := hex objects.reverse fun o ho => List.mem_reverse.mp ho
  exact ⟨rs, h, hrs⟩

namespace Records

theorem length_eq (h : Records g sortKeys objects rs) : rs.length = objects.length := by
  rw [← h.records.length_eq, List.length_reverse]

/-- The record at the number of a node is that of its object. -/
theorem exists_mem_getElem? (h : Records g sortKeys objects rs) {i : Nat}
    (hi : identity g i ∈ objects.identities) :
    ∃ o ∈ objects, ∃ r, rs[refOf g objects i]? = some r ∧ o.identity = identity g i ∧
      Recorded g sortKeys objects o.node r := by
  obtain ⟨o, hget, hid⟩ := exists_object hi
  obtain ⟨hlt, ho⟩ := List.getElem?_eq_some_iff.mp hget
  have hlt' : refOf g objects i < rs.length := h.records.length_eq ▸ hlt
  have hrecord := (List.forall₂_iff_get.mp h.records).2 _ hlt hlt'
  refine ⟨o, List.mem_reverse.mp (List.mem_of_getElem? hget), rs[refOf g objects i],
    List.getElem?_eq_getElem hlt', hid, ?_⟩
  rw [← ho]
  exact hrecord.2

theorem exists_getElem? (h : Records g sortKeys objects rs) {i : Nat}
    (hi : identity g i ∈ objects.identities) :
    ∃ j r, rs[refOf g objects i]? = some r ∧ identity g j = identity g i ∧
      Recorded g sortKeys objects j r := by
  obtain ⟨o, ho, r, hget, hid, hrecorded⟩ := h.exists_mem_getElem? hi
  refine ⟨o.node, r, hget, ?_, hrecorded⟩
  rw [← h.own o ho, hid]

/-- The record of a scalar is that of an object. -/
theorem exists_of_scalar (h : Records g sortKeys objects rs) {s : Scalar} (hs : .scalar s ∈ rs) :
    ∃ o ∈ objects, g.node o.node = .scalar s := by
  obtain ⟨o, ho, -, hrecorded⟩ := exists_of_forall₂_left h.records.flip hs
  cases hrecorded with
  | scalar hnode => exact ⟨o, List.mem_reverse.mp ho, hnode⟩

/-- A graph whose objects have records can be written. -/
theorem exists_write (h : Records g sortKeys objects rs)
    (hnumber : numberAll g sortKeys = .ok objects)
    (hstorable : ∀ o ∈ objects, ∀ s, g.node o.node = .scalar s → s.IsStorable) :
    ∃ bs, List.Forall₂ (fun r b => r.encode (widthFor objects.length) = .ok b) rs bs ∧
      write g sortKeys = .ok (assemble (widthFor objects.length) bs) := by
  obtain ⟨bs, hbs⟩ := exists_encoded (widthFor objects.length) (h.records.imp fun _ _ hor => hor.2)
    fun o ho => hstorable o (List.mem_reverse.mp ho)
  refine ⟨bs, hbs, ?_⟩
  rw [write, hnumber]
  show (encodeObjects g sortKeys (widthFor objects.length) objects objects.reverse).bind _ = _
  rw [encodeObjects_of_forall₂ (h.records.imp fun _ _ hor => hor.1) hbs]
  rfl

end Records

/-! ## The image -/

/-- A record as a node. -/
def Record.node : Record → Node
  | .scalar s => .scalar s
  | .array items => .array items
  | .dict keys values => .dict (keys.zip values)

/-- The graph whose nodes are given records. -/
def imageOf (rs : List Record) : Graph := ⟨(rs.map Record.node).toArray, 0⟩

theorem size_imageOf (rs : List Record) : (imageOf rs).nodes.size = rs.length := by
  rw [imageOf, List.size_toArray, List.length_map]

theorem getElem?_imageOf {rs : List Record} {k : Nat} {r : Record} (h : rs[k]? = some r) :
    (imageOf rs).nodes[k]? = some r.node := by
  rw [imageOf, List.getElem?_toArray, List.getElem?_map, h]
  rfl

/-- The record of a scalar is this scalar. -/
theorem Recorded.exists_scalar {i : Nat} {r : Record} {s : Scalar}
    (h : Recorded g sortKeys objects i r) (hs : g.node i = .scalar s) : r = .scalar s := by
  cases h with
  | scalar hnode => rw [Node.scalar.inj (hnode.symm.trans hs)]
  | array hnode => cases hnode.symm.trans hs
  | dict hnode => cases hnode.symm.trans hs

/-- The object at a scalar is an equal scalar. -/
theorem Recorded.of_scalar {i j : Nat} {r : Record} {s : Scalar}
    (h : Recorded g sortKeys objects j r) (hi : g.node i = .scalar s)
    (hid : identity g j = identity g i) :
    ∃ t, r = .scalar t ∧ g.node j = .scalar t ∧ t.unsignedZero = s.unsignedZero := by
  rcases eq_or_scalar_of_identity_eq hid with rfl | ⟨t, s', ht, hs', hts⟩
  · exact ⟨s, h.exists_scalar hi, hi, rfl⟩
  · obtain rfl := Node.scalar.inj (hi.symm.trans hs')
    exact ⟨t, h.exists_scalar ht, ht, hts⟩

/-- The object at an array is that array. -/
theorem Recorded.of_array {i j : Nat} {r : Record} {items : List Nat}
    (h : Recorded g sortKeys objects j r) (hi : g.node i = .array items)
    (hid : identity g j = identity g i) :
    r = .array (items.map (refOf g objects)) ∧ ∀ p ∈ items, identity g p ∈ objects.identities := by
  rw [identity_of_array hi] at hid
  obtain rfl := eq_of_identity_node hid
  cases h with
  | scalar hnode => exact absurd (hnode.symm.trans hi) (by simp)
  | array hnode hparts =>
    obtain rfl := Node.array.inj (hnode.symm.trans hi)
    exact ⟨rfl, hparts⟩
  | dict hnode => exact absurd (hnode.symm.trans hi) (by simp)

/-- The object at a dictionary is that dictionary, with its entries in order. -/
theorem Recorded.of_dict {i j : Nat} {r : Record} {entries : List (Nat × Nat)}
    (h : Recorded g sortKeys objects j r) (hi : g.node i = .dict entries)
    (hid : identity g j = identity g i) :
    ∃ es, orderedEntries g sortKeys entries = .ok es ∧
      r.node = .dict (es.map fun e => (refOf g objects e.1, refOf g objects e.2)) ∧
      ∀ e ∈ es, identity g e.1 ∈ objects.identities ∧ identity g e.2 ∈ objects.identities := by
  rw [identity_of_dict hi] at hid
  obtain rfl := eq_of_identity_node hid
  cases h with
  | scalar hnode => exact absurd (hnode.symm.trans hi) (by simp)
  | array hnode => exact absurd (hnode.symm.trans hi) (by simp)
  | @dict entries' es hnode hordered hparts =>
    obtain rfl := Node.dict.inj (hnode.symm.trans hi)
    refine ⟨es, hordered, ?_, hparts⟩
    rw [Record.node, List.zip_map']

/-- All zeros among some objects have a given sign. -/
def ZeroSign (g : Graph) (objects : Numbering) (negative : Bool) : Prop :=
  ∀ o ∈ objects, ∀ x, g.node o.node = .scalar (.real x) → x.magnitude = 0 →
    x.isNegative = negative

namespace Records

/-- All zeros among the objects are one object, and so they have one sign. -/
theorem exists_zeroSign (h : Records g sortKeys objects rs) :
    ∃ negative, ZeroSign g objects negative := by
  have hzero {o : Numbered} (ho : o ∈ objects) {x : Binary64}
      (hx : g.node o.node = .scalar (.real x)) (hmagnitude : x.magnitude = 0) :
      o.identity = .value (.real (.ofMagnitude false 0)) := by
    have hnan : x.isNaN = false := by
      rw [Binary64.isNaN, hmagnitude]
      rfl
    rw [h.own o ho, identity, hx]
    simp only [hnan, hmagnitude, if_neg Bool.false_ne_true, if_pos]
  by_cases hex : ∃ o ∈ objects, ∃ x, g.node o.node = .scalar (.real x) ∧ x.magnitude = 0
  · obtain ⟨o, ho, x, hx, hmagnitude⟩ := hex
    refine ⟨x.isNegative, fun p hp y hy hmagnitude' => ?_⟩
    have hid := (hzero hp hy hmagnitude').trans (hzero ho hx hmagnitude).symm
    obtain rfl : p = o := List.inj_on_of_nodup_map h.nodup hp ho hid
    obtain rfl := Scalar.real.inj (Node.scalar.inj (hy.symm.trans hx))
    rfl
  · exact ⟨false, fun o ho x hx hmagnitude => absurd ⟨o, ho, x, hx, hmagnitude⟩ hex⟩

/-- The scalar at a node is found at its number, with the sign that zeros have in the list. -/
theorem holds_scalar (h : Records g sortKeys objects rs) {negative : Bool}
    (hsign : ZeroSign g objects negative) {i : Nat} {s : Scalar}
    (hi : g.nodes[i]? = some (.scalar s)) (hid : identity g i ∈ objects.identities) :
    (imageOf rs).nodes[refOf g objects i]? = some (.scalar (s.withZero negative)) := by
  obtain ⟨o, ho, r, hget, hoi, hrecorded⟩ := h.exists_mem_getElem? hid
  rw [h.own o ho] at hoi
  obtain ⟨t, rfl, ht, hts⟩ := hrecorded.of_scalar (Graph.node_eq_of_getElem? hi) hoi
  rw [getElem?_imageOf hget, Record.node, Scalar.eq_withZero hts]
  rintro x rfl hx
  exact hsign o ho x ht hx

/-- The key of an entry is at the number of its node. -/
theorem holds_key (h : Records g sortKeys objects rs) {i : Nat} {k : Scalar}
    (hi : g.nodes[i]? = some (.scalar k)) (hk : k.text?.isSome = true)
    (hid : identity g i ∈ objects.identities) :
    (imageOf rs).nodes[refOf g objects i]? = some (.scalar k) := by
  obtain ⟨negative, hsign⟩ := h.exists_zeroSign
  rw [Scalar.eq_text_keyText hk] at hi ⊢
  exact h.holds_scalar hsign hi hid

/-- The image holds the tree that was written, as it was listed, but for the signs of zeros. -/
theorem holds_image (h : Records g sortKeys objects rs) {negative : Bool}
    (hsign : ZeroSign g objects negative) {v : Value} (hkeys : HasTextKeys v) {i : Nat} (hv : g.Holds i v)
    (hid : identity g i ∈ objects.identities) :
    (imageOf rs).Holds (refOf g objects i)
      ((v.arranged sortKeys).mapScalars (Scalar.withZero negative)) := by
  induction hkeys generalizing i with
  | @scalar s _ =>
    rw [Value.arranged_scalar, Value.mapScalars_scalar]
    exact Graph.holds_scalar.mpr (h.holds_scalar hsign (Graph.holds_scalar.mp hv) hid)
  | @array vs _ ih =>
    obtain ⟨ids, hnode, hvs⟩ := Graph.holds_array.mp hv
    -- the record of the container refers to the records of its parts
    obtain ⟨j, r, hget, hij, hrecorded⟩ := h.exists_getElem? hid
    obtain ⟨rfl, hparts⟩ := hrecorded.of_array (Graph.node_eq_of_getElem? hnode) hij
    rw [Value.arranged_array, Value.mapScalars_array, List.map_map]
    refine Graph.holds_array.mpr ⟨_, getElem?_imageOf hget, ?_⟩
    rw [List.forall₂_map_left_iff, List.forall₂_map_right_iff]
    exact forall₂_imp_of_mem hvs fun p w hp hw hpw => ih w hw hpw (hparts p hp)
  | @dict es hkeys _ ih =>
    obtain ⟨ids, hnode, hes⟩ := Graph.holds_dict.mp hv
    obtain ⟨j, r, hget, hij, hrecorded⟩ := h.exists_getElem? hid
    obtain ⟨ids', hordered, hrnode, hparts⟩ :=
      hrecorded.of_dict (Graph.node_eq_of_getElem? hnode) hij
    -- the entries were recorded in the order in which they are listed
    obtain ⟨ids'', hordered', hids⟩ := orderedEntries_of_forall₂ sortKeys hes hkeys
    obtain rfl := Except.ok.inj (hordered.symm.trans hordered')
    rw [Value.arranged_dict, Value.mapScalars_dict, List.map_map]
    refine Graph.holds_dict.mpr ⟨_, (getElem?_imageOf hget).trans (congrArg some hrnode), ?_⟩
    rw [List.forall₂_map_left_iff, List.forall₂_map_right_iff]
    refine forall₂_imp_of_mem hids fun p e hp he hpe => ?_
    have hmem : e ∈ es := (Value.listedEntries_perm sortKeys es).mem_iff.mp he
    refine ⟨h.holds_key hpe.1 ?_ (hparts p hp).1, ih e hmem hpe.2 (hparts p hp).2⟩
    exact hkeys e.1 (List.mem_map_of_mem hmem)

/-- The root of the image holds the tree at the root. -/
theorem holds_image_root (h : Records g sortKeys objects rs) {negative : Bool}
    (hsign : ZeroSign g objects negative) {v : Value} (hkeys : HasTextKeys v) (hv : g.Holds g.root v) :
    (imageOf rs).Holds 0 ((v.arranged sortKeys).mapScalars (Scalar.withZero negative)) := by
  have hid : identity g g.root ∈ objects.identities := by
    rw [← Numbering.number?_isSome, h.root]
    rfl
  have hroot : refOf g objects g.root = 0 := by rw [refOf, h.root, Option.getD_some]
  rw [← hroot]
  exact h.holds_image hsign hkeys hv hid

theorem exists_holds_root (h : Records g sortKeys objects rs) {v : Value} (hkeys : HasTextKeys v)
    (hv : g.Holds g.root v) :
    ∃ w, (imageOf rs).Holds 0 w ∧ w.Same (v.arranged sortKeys) := by
  obtain ⟨negative, hsign⟩ := h.exists_zeroSign
  exact ⟨_, h.holds_image_root hsign hkeys hv,
    Value.same_mapScalars (Scalar.withZero_same negative) _⟩

end Records

end Binary

end PropertyList
