/-
  PropertyList.Proofs.Binary.Faults

  The binary writer decides which trees a binary list can express.  A graph may share
  parts of its tree: what has been numbered once is not looked at again, but all that
  the tree mentions is an object in the end, up to the sign of a zero.
-/
import PropertyList.Proofs.Binary.Fixpoint

namespace PropertyList

theorem Scalar.Same.eq_or_real {s t : Scalar} (h : s.Same t) :
    s = t ∨ ∃ x y, s = .real x ∧ t = .real y := by
  unfold Same at h
  split at h
  · exact .inr ⟨_, _, rfl, rfl⟩
  · exact .inl h

namespace Binary

variable {g : Graph} {sortKeys : Bool} {objects : Numbering} {v : Value} {i : Nat}

/-! ## Numbering -/

/-- What can be reached has become an object. -/
theorem AllNumbers.met (h : AllNumbers g sortKeys objects) (hi : g.Reaches i) :
    identity g i ∈ objects.identities := by
  induction hi with
  | root => exact Numbering.number?_isSome.mp (by rw [h.root, Option.isSome_some])
  | @part i p _ hp ih =>
    have hnode : identity g i = .node i := by
      cases hx : g.node i with
      | scalar s =>
        rw [hx] at hp
        cases hp
      | array items => exact identity_of_array hx
      | dict entries => exact identity_of_dict hx
    obtain ⟨o, ho, hid⟩ := List.mem_map.mp ih
    obtain rfl : o.node = i := eq_of_identity_node ((h.own o ho).symm.trans (hid.trans hnode))
    obtain ⟨parts, hparts, hall⟩ := h.complete o ho
    exact hall p ((listedParts_perm hparts).mem_iff.mpr hp)

/-- The keys of a dictionary that has become an object are text. -/
theorem AllNumbers.isText_of_dict (h : AllNumbers g sortKeys objects) {entries : List (Nat × Nat)}
    (hi : g.Reaches i) (hnode : g.node i = .dict entries) :
    ∀ q ∈ entries, (g.scalarAt q.1).text?.isSome = true := by
  obtain ⟨o, ho, hid⟩ := List.mem_map.mp (h.met hi)
  -- a container is an object of its own, so its record was made at this node
  obtain rfl : o.node = i :=
    eq_of_identity_node ((h.own o ho).symm.trans (hid.trans (identity_of_dict hnode)))
  obtain ⟨r, -, hr⟩ := exists_recorded (h.complete o ho)
  cases hr with
  | scalar hnode' => cases hnode.symm.trans hnode'
  | array hnode' => cases hnode.symm.trans hnode'
  | dict hnode' hordered =>
    obtain rfl := Node.dict.inj (hnode.symm.trans hnode')
    exact fun q hq => isText_of_orderedEntries hordered q hq

/-- The keys of what has become an object are text. -/
theorem AllNumbers.hasTextKeys (h : AllNumbers g sortKeys objects) (hv : g.Holds i v)
    (hi : g.Reaches i) : HasTextKeys v := by
  induction v using Value.induct generalizing i with
  | scalar s => exact .scalar trivial
  | array vs ih =>
    obtain ⟨ids, hget, hvs⟩ := Graph.holds_array.mp hv
    refine .array fun w hw => ?_
    obtain ⟨p, hp, hpw⟩ := exists_of_forall₂_left hvs.flip hw
    exact ih w hw hpw (hi.item hget hp)
  | dict es ih =>
    obtain ⟨ids, hget, hes⟩ := Graph.holds_dict.mp hv
    have hkeys := h.isText_of_dict hi (Graph.node_eq_of_getElem? hget)
    refine .dict ?_ fun e he => ?_
    · intro k hk
      obtain ⟨e, he, rfl⟩ := List.mem_map.mp hk
      obtain ⟨q, hq, hkey, -⟩ := exists_of_forall₂_left hes.flip he
      rw [← Graph.scalarAt_eq_of_getElem? hkey]
      exact hkeys q hq
    · obtain ⟨q, hq, -, hvalue⟩ := exists_of_forall₂_left hes.flip he
      exact ih e he hvalue (hi.entry hget hq).2
  | back k => exact absurd hv Graph.not_holds_back

/-- A tree whose depth is within the limit can be numbered if its keys are text. -/
theorem decides_numberAll (sortKeys : Bool) (hv : g.Holds g.root v) (hdepth : v.depth < numberingBudget) :
    Decides (HasTextKeys v) (fun f => f ≠ .tooDeep) (numberAll g sortKeys) := by
  cases hobjects : numberAll g sortKeys with
  | ok objects => exact .ok ((numberAll_all hobjects).hasTextKeys hv .root)
  | error f =>
    rcases number_error hv hobjects with ⟨-, hdeep⟩ | ⟨hf, hkeys⟩
    · omega
    · exact .error hkeys hf

/-! ## Records -/

/-- What is known of a fault in writing a tree that is within the limit of depth. -/
structure Blames (v : Value) (f : WriteFault) : Prop where
  deep : f ≠ .numbering .tooDeep
  range : ∀ n, f = .record (.outOfRange n) →
    v.Mentions (.int n) ∨ ∃ m : Nat, n = m ∧ v.Mentions (.uid m)
  surrogate : f = .record .surrogate → ∃ t, v.Mentions (.text t) ∧ ¬ t.IsEncodable

theorem Blames.numbering {f : NumberingFault} (h : f ≠ .tooDeep) : Blames v (.numbering f) :=
  ⟨fun heq => h (WriteFault.numbering.inj heq), by rintro n ⟨⟩, by rintro ⟨⟩⟩

theorem Blames.mono {w : Value} {f : WriteFault} (h : Blames w f)
    (hwv : ∀ s, w.Mentions s → v.Mentions s) : Blames v f where
  deep := h.deep
  range := by
    intro n hn
    rcases h.range n hn with hint | ⟨m, hm, huid⟩
    · exact .inl (hwv _ hint)
    · exact .inr ⟨m, hm, hwv _ huid⟩
  surrogate := by
    intro hf
    obtain ⟨t, ht, hnot⟩ := h.surrogate hf
    exact ⟨t, hwv _ ht, hnot⟩

/-- An integer has a record if it has 64 bits, with or without a sign. -/
theorem decides_encodeInt (n : Int) :
    Decides (Encoding.binary.HasForm (.int n)) (fun f => f = .outOfRange n)
      (Record.encodeInt n) := by
  have hin {bytes : List UInt8} (h : -0x8000000000000000 ≤ n ∧ n < 0x10000000000000000) :
      Decides (Encoding.binary.HasForm (.int n)) (fun f => f = Record.Fault.outOfRange n)
        (.ok bytes) := .ok h
  have hout (h : ¬ (-0x8000000000000000 ≤ n ∧ n < 0x10000000000000000)) :
      Decides (α := List UInt8) (Encoding.binary.HasForm (.int n))
        (fun f => f = Record.Fault.outOfRange n) (.error (.outOfRange n)) := .error h rfl
  unfold Record.encodeInt
  dsimp only
  split_ifs <;> first | exact hin (by omega) | exact hout (by omega)

/-- A UID has a record if it has 64 bits. -/
theorem decides_encodeUid (n : Nat) :
    Decides (Encoding.binary.HasForm (.uid n)) (fun f => f = .outOfRange n)
      (Record.encodeUid n) := by
  have hin {bytes : List UInt8} (h : n < 0x10000000000000000) :
      Decides (Encoding.binary.HasForm (.uid n)) (fun f => f = Record.Fault.outOfRange n)
        (.ok bytes) := .ok h
  unfold Record.encodeUid
  split_ifs <;> first | exact hin (by omega) | exact .error ‹_› rfl

/-- A scalar has a record if it has a form in binary lists. -/
theorem decides_encodeScalar (s : Scalar) :
    Decides (Encoding.binary.HasForm s) (fun f => Blames (.scalar s) (.record f))
      (Record.encodeScalar s) := by
  cases s with
  | bool b => cases b <;> exact .ok trivial
  | int n =>
    refine (decides_encodeInt n).mono ?_
    rintro f rfl
    refine ⟨by rintro ⟨⟩, ?_, by rintro ⟨⟩⟩
    rintro m ⟨⟩
    exact .inl (.scalar _)
  | uid n =>
    refine (decides_encodeUid n).mono ?_
    rintro f rfl
    refine ⟨by rintro ⟨⟩, ?_, by rintro ⟨⟩⟩
    rintro m ⟨⟩
    exact .inr ⟨n, rfl, .scalar _⟩
  | text t =>
    show Decides t.IsEncodable _ (Record.encodeText t)
    cases hbytes : Record.encodeText t with
    | ok bytes => exact .ok (Record.isEncodable_of_encodeText hbytes)
    | error f =>
      -- text without a record cannot be encoded, as all other text has one
      have hnot : ¬ t.IsEncodable := by
        intro h
        obtain ⟨bytes, hok⟩ := Record.exists_encodeScalar (s := .text t) h
        cases hbytes.symm.trans hok
      refine .error hnot ⟨by rintro ⟨⟩, ?_, fun _ => ⟨t, .scalar _, hnot⟩⟩
      rintro n ⟨⟩
      rw [Record.encodeText] at hbytes
      split at hbytes
      · cases hbytes
      · split at hbytes <;> cases hbytes
  | _ => exact .ok trivial

/-- A record has bytes if it is no scalar without a form. -/
theorem decides_encode (refSize : Nat) {r : Record} (h : Recorded g sortKeys objects i r)
    (hv : ∀ s, g.node i = .scalar s → v.Mentions s) :
    Decides (∀ s, g.node i = .scalar s → Encoding.binary.HasForm s)
      (fun f => Blames v (.record f)) (r.encode refSize) := by
  cases h with
  | @scalar s hnode =>
    refine ((decides_encodeScalar s).mono fun f hf => hf.mono ?_).congr ?_
    · intro t ht
      obtain rfl := Value.mentions_scalar_iff.mp ht
      exact hv t hnode
    · rw [hnode]
      exact ⟨by rintro h t ⟨⟩; exact h, fun h => h s rfl⟩
  | array hnode =>
    refine .ok ?_
    rw [hnode]
    rintro s ⟨⟩
  | dict hnode =>
    refine .ok ?_
    rw [hnode]
    rintro s ⟨⟩

/-- Complete objects are encoded if their scalars have a form. -/
theorem decides_encodeObjects (refSize : Nat) {os : List Numbered}
    (hos : ∀ o ∈ os, Complete g sortKeys objects o)
    (hv : ∀ o ∈ os, ∀ s, g.node o.node = .scalar s → v.Mentions s) :
    Decides (∀ o ∈ os, ∀ s, g.node o.node = .scalar s → Encoding.binary.HasForm s) (Blames v)
      (encodeObjects g sortKeys refSize objects os) := by
  induction os with
  | nil => exact .ok (List.forall_mem_nil _)
  | cons o os ih =>
    have hrest := ih (fun p hp => hos p (List.mem_cons_of_mem _ hp))
      fun p hp => hv p (List.mem_cons_of_mem _ hp)
    obtain ⟨r, hr, hrecorded⟩ := exists_recorded (hos o List.mem_cons_self)
    have hfirst := (decides_encode refSize hrecorded (hv o List.mem_cons_self)).mapError
      (g := WriteFault.record) fun f hf => hf
    rw [encodeObjects, hr, List.forall_mem_cons]
    exact hfirst.bind fun bytes _ _ => hrest.map

/-! ## Graphs -/

/-- Whether a scalar has a form does not depend on the sign of a zero. -/
theorem hasForm_of_unsignedZero {s t : Scalar} (h : t.unsignedZero = s.unsignedZero)
    (ht : Encoding.binary.HasForm t) : Encoding.binary.HasForm s := by
  rcases (Scalar.same_of_unsignedZero h).eq_or_real with rfl | ⟨_, y, _, rfl⟩
  · exact ht
  · trivial

/-- The scalars of the objects have a form if all that the tree mentions has one. -/
theorem AllNumbers.forall_hasForm_iff (h : AllNumbers g sortKeys objects)
    (hnumber : numberAll g sortKeys = .ok objects) (hv : g.Holds g.root v) :
    (∀ o ∈ objects, ∀ s, g.node o.node = .scalar s → Encoding.binary.HasForm s) ↔
      ∀ s, v.Mentions s → Encoding.binary.HasForm s := by
  constructor
  · intro hforms s hs
    obtain ⟨i, hi, hnode⟩ := hv.exists_scalar .root hs
    obtain ⟨o, ho, hid⟩ := List.mem_map.mp (h.met hi)
    obtain ⟨t, ht, hts⟩ := exists_scalar_of_identity_eq hnode ((h.own o ho).symm.trans hid)
    exact hasForm_of_unsignedZero hts (hforms o ho t ht)
  · intro hforms o ho s hs
    exact hforms s (hv.mentions (reaches_of_mem hnumber ho) hs)

/-- The trees that a binary list can express have text keys, and all that they mention has a
    form. -/
theorem expresses_iff : Encoding.binary.Expresses sortKeys v ↔
    HasTextKeys v ∧ ∀ s, v.Mentions s → Encoding.binary.HasForm s := by
  constructor
  · intro h
    have hkeys : HasTextKeys v := h.mono (fun _ _ => trivial) fun keys hkeys k hk =>
      (hkeys.text k hk).resolve_left (by decide)
    exact ⟨hkeys, (Encoding.expresses_iff_of_text hkeys).mp h⟩
  · rintro ⟨hkeys, h⟩
    exact (Encoding.expresses_iff_of_text hkeys).mpr h

/-- A binary list is written of a graph if its tree can be expressed. -/
theorem decides_write (sortKeys : Bool) (hv : g.Holds g.root v)
    (hdepth : v.depth < numberingBudget) :
    Decides (Encoding.binary.Expresses sortKeys v) (Blames v) (write g sortKeys) := by
  refine (((decides_numberAll sortKeys hv hdepth).mapError (g := WriteFault.numbering)
    (G := Blames v) fun f hf => .numbering hf).bind
    (Q := ∀ s, v.Mentions s → Encoding.binary.HasForm s) fun objects hobjects _ => ?_).congr
    expresses_iff.symm
  have hnumber := eq_ok_of_mapError hobjects
  have hall := numberAll_all hnumber
  have hmentions : ∀ o ∈ objects.reverse, ∀ s, g.node o.node = .scalar s → v.Mentions s :=
    fun o ho s hs => hv.mentions (reaches_of_mem hnumber (List.mem_reverse.mp ho)) hs
  have hencode := decides_encodeObjects (widthFor objects.length)
    (fun o ho => hall.complete o (List.mem_reverse.mp ho)) hmentions
  refine ((hencode.bind (Q := True) fun _ _ _ => .ok trivial).congr ?_)
  rw [and_true, ← hall.forall_hasForm_iff hnumber hv]
  simp only [List.mem_reverse]

end Binary

end PropertyList
