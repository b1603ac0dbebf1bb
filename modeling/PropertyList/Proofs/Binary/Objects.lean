/-
  PropertyList.Proofs.Binary.Objects

  Numbering and writing a graph that holds a tree.  If the keys of the tree are
  text it can be numbered, and if its scalars are storable every object has a
  record.  The `image` of the graph has these records as its nodes; it holds the
  tree again, with its entries in the order in which they were written.
-/
import PropertyList.Proofs.Binary.Numbering
import PropertyList.Proofs.Binary.Record
import PropertyList.Proofs.Graph.Reach

namespace PropertyList

namespace Binary

variable {g : Graph} {sortKeys : Bool}

/-! ## Entries in their order -/

/-- Entries in the order in which they are written, if their keys are text. -/
def listedIds (g : Graph) (sortKeys : Bool) (ids : List (Nat × Nat)) : List (Nat × Nat) :=
  if sortKeys then Text.sortBy (fun p => (g.scalarAt p.1).keyText) ids else ids

theorem listedIds_perm (g : Graph) (sortKeys : Bool) (ids : List (Nat × Nat)) :
    (listedIds g sortKeys ids).Perm ids := by
  cases sortKeys with
  | false => exact .refl _
  | true => exact Text.sortBy_perm _ ids

/-- Entries can be put in order exactly if their keys are text. -/
theorem orderedEntries_of_text (sortKeys : Bool) {ids : List (Nat × Nat)}
    (h : ∀ p ∈ ids, (g.scalarAt p.1).text?.isSome = true) :
    orderedEntries g sortKeys ids = .ok (listedIds g sortKeys ids) := by
  have hlisted : ∀ p ∈ listedIds g sortKeys ids, (g.scalarAt p.1).text?.isSome = true :=
    fun p hp => h p ((listedIds_perm g sortKeys ids).mem_iff.mp hp)
  cases sortKeys with
  | false => exact if_pos (List.all_eq_true.mpr hlisted)
  | true =>
    rw [orderedEntries, if_pos rfl, Scalar.sortByKey?_of_text h]
    exact if_pos (List.all_eq_true.mpr hlisted)

theorem isText_of_orderedEntries {ids es : List (Nat × Nat)}
    (h : orderedEntries g sortKeys ids = .ok es) :
    ∀ p ∈ ids, (g.scalarAt p.1).text?.isSome = true := by
  have hall {l : List (Nat × Nat)} (hl : (if (l.all fun p => (g.scalarAt p.1).text?.isSome) = true
      then .ok l else .error NumberingFault.keyNotText : Except NumberingFault _) = .ok es) :
      ∀ p ∈ l, (g.scalarAt p.1).text?.isSome = true := by
    split at hl
    · next htext => exact List.all_eq_true.mp htext
    · cases hl
  cases sortKeys with
  | false => exact hall h
  | true =>
    rw [orderedEntries, if_pos rfl] at h
    cases hsorted : Scalar.sortByKey? (fun p : Nat × Nat => g.scalarAt p.1) ids with
    | none =>
      rw [hsorted] at h
      cases h
    | some l =>
      rw [hsorted] at h
      have hperm := Scalar.perm_of_sortByKey? hsorted
      exact fun p hp => hall h p (hperm.mem_iff.mpr hp)

theorem eq_listedIds_of_orderedEntries {ids es : List (Nat × Nat)}
    (h : orderedEntries g sortKeys ids = .ok es) : es = listedIds g sortKeys ids := by
  rw [orderedEntries_of_text sortKeys (isText_of_orderedEntries h)] at h
  exact (Except.ok.inj h).symm

theorem isText_of_forall₂ {ids : List (Nat × Nat)} {es : List (Scalar × Value)}
    (h : List.Forall₂ g.HoldsEntry ids es) (htext : ∀ k ∈ es.map (·.1), k.text?.isSome = true) :
    ∀ p ∈ ids, (g.scalarAt p.1).text?.isSome = true := by
  intro p hp
  obtain ⟨e, he, hpe⟩ := exists_of_forall₂_left h hp
  rw [Graph.scalarAt_eq_of_getElem? hpe.1]
  exact htext e.1 (List.mem_map_of_mem he)

/-- Entries with text keys are written in the order in which the tree lists them. -/
theorem orderedEntries_of_forall₂ (sortKeys : Bool) {ids : List (Nat × Nat)} {es : List (Scalar × Value)}
    (h : List.Forall₂ g.HoldsEntry ids es) (htext : ∀ k ∈ es.map (·.1), k.text?.isSome = true) :
    ∃ ids', orderedEntries g sortKeys ids = .ok ids' ∧
      List.Forall₂ g.HoldsEntry ids' (Value.listedEntries sortKeys es) := by
  refine ⟨_, orderedEntries_of_text sortKeys (isText_of_forall₂ h htext), ?_⟩
  cases sortKeys with
  | false => exact h
  | true => exact Text.forall₂_sortBy h fun p e hpe => by rw [Graph.scalarAt_eq_of_getElem? hpe.1]

/-! ## Numbering a tree -/

/-- The keys of all dictionaries are text. -/
abbrev HasTextKeys (v : Value) : Prop :=
  v.Over (fun _ => True) fun keys => ∀ k ∈ keys, k.text?.isSome = true

theorem hasTextKeys_of_over {P : Scalar → Prop} {Q : Text → Prop} {v : Value}
    (h : v.Over P (TextKeys Q)) : HasTextKeys v :=
  h.mono (fun _ _ => trivial) fun _ hkeys _ hk => hkeys.isText hk

theorem keys_values_perm (entries : List (Nat × Nat)) :
    (entries.map (·.1) ++ entries.map (·.2)).Perm (Node.dict entries).parts := by
  induction entries with
  | nil => exact .refl _
  | cons e es ih =>
    rw [List.map_cons, List.map_cons, List.cons_append]
    exact (List.perm_middle.trans (ih.cons e.2)).cons e.1

theorem listedParts_perm {ps : List Nat} {x : Node} (h : listedParts g sortKeys x = .ok ps) : ps.Perm x.parts := by
  cases x with
  | scalar s =>
    obtain rfl := Except.ok.inj h
    exact .refl _
  | array items =>
    obtain rfl := Except.ok.inj h
    exact .refl _
  | dict entries =>
    obtain ⟨es, hordered, rfl⟩ := exists_of_map_eq_ok h
    have hperm := listedIds_perm g sortKeys entries
    rw [← eq_listedIds_of_orderedEntries hordered] at hperm
    -- the keys are listed in front of the values, but they are the same parts
    exact ((hperm.map _).append (hperm.map _)).trans (keys_values_perm entries)

/-- The parts of a dictionary that holds a tree are its keys and its values. -/
theorem listedParts_of_dict (sortKeys : Bool) {i : Nat} {ids : List (Nat × Nat)} {es : List (Scalar × Value)}
    (hget : g.nodes[i]? = some (.dict ids)) (h : List.Forall₂ g.HoldsEntry ids es)
    (htext : ∀ k ∈ es.map (·.1), k.text?.isSome = true) :
    ∃ ids', orderedEntries g sortKeys ids = .ok ids' ∧
      listedParts g sortKeys (g.node i) = .ok (ids'.map (·.1) ++ ids'.map (·.2)) ∧
      List.Forall₂ g.HoldsEntry ids' (Value.listedEntries sortKeys es) := by
  obtain ⟨ids', hordered, hids'⟩ := orderedEntries_of_forall₂ sortKeys h htext
  refine ⟨ids', hordered, ?_, hids'⟩
  rw [Graph.node_eq_of_getElem? hget, listedParts, hordered]
  rfl

/-- Listing the parts of a node goes down no level. -/
theorem listedParts_ne_tooDeep (x : Node) : listedParts g sortKeys x ≠ .error .tooDeep := by
  cases x with
  | scalar s => rintro ⟨⟩
  | array items => rintro ⟨⟩
  | dict entries =>
    have hall {l : List (Nat × Nat)} : (if (l.all fun p => (g.scalarAt p.1).text?.isSome) = true
        then .ok l else .error NumberingFault.keyNotText : Except NumberingFault _) ≠
          .error .tooDeep := by
      split <;> rintro ⟨⟩
    -- neither the order nor the check of the keys looks below the entries
    have hordered : orderedEntries g sortKeys entries ≠ .error .tooDeep := by
      cases sortKeys with
      | false => exact hall
      | true =>
        rw [orderedEntries, if_pos rfl]
        cases Scalar.sortByKey? (fun e : Nat × Nat => g.scalarAt e.1) entries with
        | none => rintro ⟨⟩
        | some l => exact hall
    rw [listedParts]
    cases hes : orderedEntries g sortKeys entries with
    | ok es => rintro ⟨⟩
    | error f =>
      rw [hes] at hordered
      rintro ⟨⟩
      exact hordered rfl

/-- The parts of a node that holds a tree with text keys can be listed. -/
theorem exists_listedParts {v : Value} (hkeys : HasTextKeys v) {i : Nat} (hv : g.Holds i v)
    (sortKeys : Bool) : ∃ parts, listedParts g sortKeys (g.node i) = .ok parts := by
  cases hkeys with
  | scalar =>
    rw [Graph.node_eq_of_getElem? (Graph.holds_scalar.mp hv)]
    exact ⟨[], rfl⟩
  | array =>
    obtain ⟨ids, hget, -⟩ := Graph.holds_array.mp hv
    rw [Graph.node_eq_of_getElem? hget]
    exact ⟨ids, rfl⟩
  | dict htext =>
    obtain ⟨ids, hget, hes⟩ := Graph.holds_dict.mp hv
    obtain ⟨ids', -, hparts, -⟩ := listedParts_of_dict sortKeys hget hes htext
    exact ⟨_, hparts⟩

/-- A tree is numbered, unless it is deeper than the budget, or some keys are not text. -/
theorem number_error {v : Value} {i budget : Nat} {objects : Numbering} {f : NumberingFault}
    (hv : g.Holds i v) (h : number g sortKeys budget objects i = .error f) :
    f = .tooDeep ∧ budget ≤ v.depth ∨ f ≠ .tooDeep ∧ ¬ HasTextKeys v := by
  induction budget generalizing i v objects with
  | zero => exact .inl ⟨(Except.error.inj h).symm, Nat.zero_le _⟩
  | succ budget ih =>
    rw [number_succ] at h
    split at h
    · cases h
    cases hparts : listedParts g sortKeys (g.node i) with
    | error f' =>
      rw [hparts] at h
      obtain rfl := Except.error.inj h
      refine .inr ⟨fun hf => listedParts_ne_tooDeep _ (hf ▸ hparts), fun hkeys => ?_⟩
      obtain ⟨parts, hok⟩ := exists_listedParts hkeys hv sortKeys
      cases hparts.symm.trans hok
    | ok parts =>
      rw [hparts] at h
      -- some part could not be numbered on the budget that was left for it
      obtain ⟨before, p, after, objects', rfl, -, hp⟩ := exists_of_foldlM_eq_error h
      have hmem : p ∈ before ++ p :: after := List.mem_append_right _ List.mem_cons_self
      obtain ⟨w, hw, hpart⟩ := hv.exists_part ((listedParts_perm hparts).mem_iff.mp hmem)
      have hlt := hpart.depth_lt
      rcases ih hw hp with ⟨hf, hdeep⟩ | ⟨hf, hkeys⟩
      · exact .inl ⟨hf, by omega⟩
      · exact .inr ⟨hf, fun hv => hkeys (hpart.over hv)⟩

/-- A tree with text keys can be numbered. -/
theorem exists_number {v : Value} (hkeys : HasTextKeys v) {i budget : Nat} (hv : g.Holds i v)
    (hbudget : v.depth < budget) (objects : Numbering) :
    ∃ objects', number g sortKeys budget objects i = .ok objects' := by
  cases hnumber : number g sortKeys budget objects i with
  | ok objects' => exact ⟨objects', rfl⟩
  | error f =>
    rcases number_error hv hnumber with ⟨-, hdeep⟩ | ⟨-, hnot⟩
    · omega
    · exact absurd hkeys hnot

/-- Numbering nodes one after the other only meets what can be reached from them. -/
theorem foldlM_number_reaches {P : Nat → Prop} {budget : Nat}
    (hnumber : ∀ objects i objects', P i → number g sortKeys budget objects i = .ok objects' →
      ∀ o ∈ objects', o ∈ objects ∨ P o.node)
    {parts : List Nat} {objects objects' : Numbering} (hparts : ∀ p ∈ parts, P p)
    (h : parts.foldlM (number g sortKeys budget) objects = .ok objects') :
    ∀ o ∈ objects', o ∈ objects ∨ P o.node := by
  induction parts generalizing objects with
  | nil =>
    obtain rfl := Except.ok.inj h
    exact fun o ho => .inl ho
  | cons p ps ih =>
    intro o ho
    rw [List.foldlM_cons] at h
    obtain ⟨next, hp, h⟩ := exists_of_bind_eq_ok h
    rcases @ih next (fun q hq => hparts q (List.mem_cons_of_mem _ hq)) h o ho with ho | ho
    · exact hnumber objects p next (hparts p List.mem_cons_self) hp o ho
    · exact .inr ho

/-- Numbering a node only meets what can be reached from it. -/
theorem number_reaches {P : Nat → Prop} {budget i : Nat} {objects objects' : Numbering}
    (hP : ∀ j parts, P j → listedParts g sortKeys (g.node j) = .ok parts → ∀ p ∈ parts, P p)
    (hi : P i) (h : number g sortKeys budget objects i = .ok objects') :
    ∀ o ∈ objects', o ∈ objects ∨ P o.node := by
  induction budget generalizing i objects objects' with
  | zero => cases h
  | succ budget ih =>
    rw [number_succ] at h
    split at h
    · obtain rfl := Except.ok.inj h
      exact fun o ho => .inl ho
    obtain ⟨parts, hparts, h⟩ := exists_of_bind_eq_ok h
    intro o ho
    rcases foldlM_number_reaches (fun _ _ _ hj hnumber => ih hj hnumber) (hP i parts hi hparts) h
      o ho with ho | ho
    · rcases List.mem_cons.mp ho with rfl | ho
      · exact .inr hi
      · exact .inl ho
    · exact .inr ho

end Binary

end PropertyList
