/-
  PropertyList.Proofs.Binary.Simulation

  Graphs that are written as the same bytes.  A relation between the nodes of two
  graphs simulates the one by the other if related nodes have related parts, and
  if two nodes are one object on the one side exactly if they are on the other.
  Then the objects of the two graphs match number by number, and so do their
  records.
-/
import PropertyList.Proofs.Binary.Image

namespace PropertyList

/-- A scalar that is never one object with another one. -/
def Scalar.standsAlone : Scalar → Bool
  | uid _ => true
  | real x => x.isNaN
  | _ => false

namespace Binary

variable {g g' : Graph} {sortKeys : Bool}

/-! ## Nodes that are written alike -/

/-- The identity of a scalar: itself, up to the sign of a zero, or else its node. -/
theorem identity_of_scalar {i : Nat} {s : Scalar} (h : g.node i = .scalar s) :
    identity g i = if s.unsignedZero.standsAlone then .node i else .value s.unsignedZero := by
  rw [identity, h]
  cases s with
  | real x =>
    by_cases hzero : x.magnitude = 0
    · have hnan : x.isNaN = false := by
        rw [Binary64.isNaN, hzero]
        rfl
      have hplus : (Binary64.ofMagnitude false 0).isNaN = false := by decide
      simp only [Scalar.unsignedZero, if_pos hzero, hnan, Scalar.standsAlone, hplus]
    · simp only [Scalar.unsignedZero, if_neg hzero, Scalar.standsAlone]
  | _ => rfl

/-- Nodes of two graphs with the same scalar, up to the sign of a zero, or with related parts in
    the order in which they are written. -/
inductive Alike (g g' : Graph) (sortKeys : Bool) (R : Nat → Nat → Prop) : Node → Node → Prop where
  | scalar {s t : Scalar} (h : s.unsignedZero = t.unsignedZero) :
      Alike g g' sortKeys R (.scalar s) (.scalar t)
  | array {items items' : List Nat} (h : List.Forall₂ R items items') :
      Alike g g' sortKeys R (.array items) (.array items')
  | dict {entries entries' es es' : List (Nat × Nat)}
      (hordered : orderedEntries g sortKeys entries = .ok es)
      (hordered' : orderedEntries g' sortKeys entries' = .ok es')
      (h : List.Forall₂ (fun e f => R e.1 f.1 ∧ R e.2 f.2) es es') :
      Alike g g' sortKeys R (.dict entries) (.dict entries')

/-- Nodes that are alike are both objects of their own, or both objects by the same value. -/
theorem Alike.identity_or {R : Nat → Nat → Prop} {i j : Nat}
    (h : Alike g g' sortKeys R (g.node i) (g'.node j)) :
    (identity g i = .node i ∧ identity g' j = .node j) ∨
      ∃ s, identity g i = .value s ∧ identity g' j = .value s := by
  generalize hi : g.node i = x at h
  generalize hj : g'.node j = y at h
  cases h with
  | @scalar s t hst =>
    rw [identity_of_scalar hi, identity_of_scalar hj, hst]
    cases t.unsignedZero.standsAlone with
    | true => exact .inl ⟨rfl, rfl⟩
    | false => exact .inr ⟨_, rfl, rfl⟩
  | array => exact .inl ⟨identity_of_array hi, identity_of_array hj⟩
  | dict => exact .inl ⟨identity_of_dict hi, identity_of_dict hj⟩

theorem Alike.exists_listedParts {R : Nat → Nat → Prop} {x y : Node} (h : Alike g g' sortKeys R x y) :
    ∃ ps qs, listedParts g sortKeys x = .ok ps ∧ listedParts g' sortKeys y = .ok qs ∧
      List.Forall₂ R ps qs := by
  cases h with
  | scalar => exact ⟨[], [], rfl, rfl, .nil⟩
  | @array items items' h => exact ⟨items, items', rfl, rfl, h⟩
  | @dict entries entries' es es' hordered hordered' h =>
    refine ⟨es.map (·.1) ++ es.map (·.2), es'.map (·.1) ++ es'.map (·.2), ?_, ?_, ?_⟩
    · rw [listedParts, hordered]
      rfl
    · rw [listedParts, hordered']
      rfl
    · refine List.rel_append ?_ ?_
      · rw [List.forall₂_map_left_iff, List.forall₂_map_right_iff]
        exact h.imp fun _ _ hef => hef.1
      · rw [List.forall₂_map_left_iff, List.forall₂_map_right_iff]
        exact h.imp fun _ _ hef => hef.2

/-! ## Simulation -/

/-- A relation under which a second graph is written like a first one, whose objects are `all`: a
    node where an object was met first has exactly the scalar of its counterpart. -/
structure Simulates (g g' : Graph) (sortKeys : Bool) (all : Numbering) (R : Nat → Nat → Prop) :
    Prop where
  alike {i j : Nat} (h : R i j) : Alike g g' sortKeys R (g.node i) (g'.node j)
  exact {i j : Nat} {s : Scalar} (h : R i j) (hfirst : ⟨identity g i, i⟩ ∈ all)
    (hs : g.node i = .scalar s) : g'.node j = .scalar s
  place {i j i' j' : Nat} (h : R i j) (h' : R i' j') (hi : identity g i = .node i)
    (hi' : identity g i' = .node i') : i = i' ↔ j = j'

/-- Objects of the two graphs with the same number. -/
structure Paired (g g' : Graph) (R : Nat → Nat → Prop) (o o' : Numbered) : Prop where
  own : o.identity = identity g o.node
  own' : o'.identity = identity g' o'.node
  related : R o.node o'.node

section Simulation

variable {all objects objects' : Numbering} {R : Nat → Nat → Prop} {i j : Nat}

theorem Simulates.identity_iff (h : Simulates g g' sortKeys all R) {i' j' : Nat} (hij : R i j)
    (hij' : R i' j') : identity g i = identity g i' ↔ identity g' j = identity g' j' := by
  rcases (h.alike hij).identity_or with ⟨hi, hj⟩ | ⟨s, hi, hj⟩
  · rcases (h.alike hij').identity_or with ⟨hi', hj'⟩ | ⟨t, hi', hj'⟩
    · have hplace := h.place hij hij' hi hi'
      rw [hi, hj, hi', hj']
      simpa using hplace
    · rw [hi, hj, hi', hj']
      simp
  · rcases (h.alike hij').identity_or with ⟨hi', hj'⟩ | ⟨t, hi', hj'⟩
    · rw [hi, hj, hi', hj']
      simp
    · rw [hi, hj, hi', hj']

/-- Related nodes have the same number. -/
theorem Simulates.number?_eq (h : Simulates g g' sortKeys all R)
    (hobjects : List.Forall₂ (Paired g g' R) objects objects') (hij : R i j) :
    objects.number? (identity g i) = objects'.number? (identity g' j) := by
  induction hobjects with
  | nil => rfl
  | @cons o o' os os' ho hos ih =>
    have hiff := h.identity_iff ho.related hij
    rw [Numbering.number?, Numbering.number?, ho.own, ho.own', ih, hos.length_eq]
    by_cases hid : identity g o.node = identity g i
    · rw [if_pos hid, if_pos (hiff.mp hid)]
    · rw [if_neg hid, if_neg fun hid' => hid (hiff.mpr hid')]

theorem Simulates.refOf_eq (h : Simulates g g' sortKeys all R)
    (hobjects : List.Forall₂ (Paired g g' R) objects objects') (hij : R i j) :
    refOf g objects i = refOf g' objects' j := by
  rw [refOf, refOf, h.number?_eq hobjects hij]

/-- Numbering related nodes one after the other. -/
theorem exists_foldlM_number {budget : Nat}
    (hnumber : ∀ objects objects' i j next, List.Forall₂ (Paired g g' R) objects objects' →
      R i j → number g sortKeys budget objects i = .ok next →
      ∃ next', number g' sortKeys budget objects' j = .ok next' ∧
        List.Forall₂ (Paired g g' R) next next')
    {ps qs : List Nat} (hps : List.Forall₂ R ps qs) {next : Numbering}
    (hobjects : List.Forall₂ (Paired g g' R) objects objects')
    (h : ps.foldlM (number g sortKeys budget) objects = .ok next) :
    ∃ next', qs.foldlM (number g' sortKeys budget) objects' = .ok next' ∧
      List.Forall₂ (Paired g g' R) next next' := by
  induction hps generalizing objects objects' with
  | nil =>
    obtain rfl := Except.ok.inj h
    exact ⟨objects', rfl, hobjects⟩
  | @cons p q ps qs hpq _ ih =>
    rw [List.foldlM_cons] at h
    obtain ⟨middle, hp, h⟩ := exists_of_bind_eq_ok h
    obtain ⟨middle', hq, hmiddle⟩ := hnumber objects objects' p q middle hobjects hpq hp
    obtain ⟨next', hrest, hnext⟩ := ih hmiddle h
    refine ⟨next', ?_, hnext⟩
    rw [List.foldlM_cons, hq]
    exact hrest

/-- Numbering related nodes keeps the objects in step. -/
theorem Simulates.exists_number (h : Simulates g g' sortKeys all R) {budget : Nat}
    {next : Numbering} (hobjects : List.Forall₂ (Paired g g' R) objects objects') (hij : R i j)
    (hnumber : number g sortKeys budget objects i = .ok next) :
    ∃ next', number g' sortKeys budget objects' j = .ok next' ∧
      List.Forall₂ (Paired g g' R) next next' := by
  induction budget generalizing objects objects' i j next with
  | zero => cases hnumber
  | succ budget ih =>
    rw [number_succ] at hnumber ⊢
    rw [← h.number?_eq hobjects hij]
    -- a node that has a number here has the same number there
    by_cases hseen : (objects.number? (identity g i)).isSome = true
    · rw [if_pos hseen] at hnumber ⊢
      obtain rfl := Except.ok.inj hnumber
      exact ⟨objects', rfl, hobjects⟩
    rw [if_neg hseen] at hnumber ⊢
    obtain ⟨ps, qs, hps, hqs, hforall⟩ := (h.alike hij).exists_listedParts
    rw [hps] at hnumber
    rw [hqs]
    exact exists_foldlM_number (fun _ _ _ _ _ hobjects hpq hp => ih hobjects hpq hp) hforall
      (.cons ⟨rfl, rfl, hij⟩ hobjects) hnumber

/-! ## Records and bytes -/

/-- The parts of related nodes have the same numbers. -/
theorem Simulates.map_refOf_eq (h : Simulates g g' sortKeys all R)
    (hobjects : List.Forall₂ (Paired g g' R) objects objects') {ps qs : List Nat}
    (hps : List.Forall₂ R ps qs) : ps.map (refOf g objects) = qs.map (refOf g' objects') :=
  map_eq_map_of_forall₂ hps fun _ _ hpq => h.refOf_eq hobjects hpq

/-- Objects with the same number have the same record. -/
theorem Simulates.recordOf_eq (h : Simulates g g' sortKeys objects R)
    (hobjects : List.Forall₂ (Paired g g' R) objects objects') {o o' : Numbered} (ho : o ∈ objects)
    (hoo' : Paired g g' R o o') :
    recordOf g sortKeys objects o.node = recordOf g' sortKeys objects' o'.node := by
  have hfirst : ⟨identity g o.node, o.node⟩ ∈ objects := by
    rw [← hoo'.own]
    exact ho
  -- a scalar that comes first under its identity is copied exactly, even a zero
  have hexact (s : Scalar) := @h.exact o.node o'.node s hoo'.related hfirst
  have halike := h.alike hoo'.related
  unfold recordOf
  generalize g.node o.node = x at halike hexact
  generalize g'.node o'.node = y at halike hexact
  cases halike with
  | @scalar s t => rw [hexact s rfl]
  | array hitems => simp only [h.map_refOf_eq hobjects hitems]
  | @dict entries entries' es es' hordered hordered' hes =>
    have hkeys : (es.map fun e => refOf g objects e.1) = es'.map fun e => refOf g' objects' e.1 :=
      map_eq_map_of_forall₂ hes fun _ _ hef => h.refOf_eq hobjects hef.1
    have hvalues : (es.map fun e => refOf g objects e.2) = es'.map fun e => refOf g' objects' e.2 :=
      map_eq_map_of_forall₂ hes fun _ _ hef => h.refOf_eq hobjects hef.2
    simp only [hordered, hordered', hkeys, hvalues]

theorem encodeObjects_eq {refSize : Nat} {os os' : List Numbered}
    (hrecord : List.Forall₂ (fun o o' =>
      recordOf g sortKeys objects o.node = recordOf g' sortKeys objects' o'.node) os os') :
    encodeObjects g sortKeys refSize objects os =
      encodeObjects g' sortKeys refSize objects' os' := by
  induction hrecord with
  | nil => rfl
  | cons ho _ ih => rw [encodeObjects, encodeObjects, ho, ih]

/-- A graph is written as the same bytes as a graph that it simulates. -/
theorem Simulates.write_eq (h : Simulates g g' sortKeys objects R) (hroot : R g.root g'.root)
    (hnumber : numberAll g sortKeys = .ok objects) : write g' sortKeys = write g sortKeys := by
  obtain ⟨objects', hnumber', hobjects⟩ := h.exists_number .nil hroot hnumber
  have hnumber'' : numberAll g' sortKeys = .ok objects' := hnumber'
  have hrecords : List.Forall₂ (fun o o' =>
      recordOf g sortKeys objects o.node = recordOf g' sortKeys objects' o'.node)
      objects.reverse objects'.reverse := by
    refine List.rel_reverse ?_
    exact forall₂_imp_of_mem hobjects fun _ _ ho _ hoo' => h.recordOf_eq hobjects ho hoo'
  rw [write, write, hnumber, hnumber'']
  show (encodeObjects g' sortKeys (widthFor objects'.length) objects' objects'.reverse).bind _ =
    (encodeObjects g sortKeys (widthFor objects.length) objects objects.reverse).bind _
  rw [encodeObjects_eq hrecords, hobjects.length_eq]

end Simulation

end Binary

end PropertyList
