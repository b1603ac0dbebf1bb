/-
  PropertyList.Proofs.Binary.Zeros

  Which zero a binary list keeps.  All zeros are one object whatever their signs, and
  this object is made where the first of them is met.  So the zeros of a tree come back
  with the sign of the one that is listed first.
-/
import PropertyList.Proofs.Binary.Rewriting
import PropertyList.Proofs.Expressible

namespace PropertyList

/-! ## Zeros in trees -/

/-- The sign of a scalar that is a zero. -/
def Scalar.zeroSign? : Scalar → Option Bool
  | real x => if x.magnitude = 0 then some x.isNegative else none
  | _ => none

theorem Scalar.zeroSign?_eq_some {s : Scalar} {negative : Bool} (h : s.zeroSign? = some negative) :
    s = .real (.ofMagnitude negative 0) := by
  cases s with
  | real x =>
    rw [zeroSign?] at h
    split_ifs at h with hx
    obtain rfl := Option.some.inj h
    rw [← hx, Binary64.ofMagnitude_eta]
  | _ => cases h

/-- Equal scalars are both zeros or neither of them is. -/
theorem Scalar.isSome_zeroSign?_congr {s t : Scalar} (h : s.unsignedZero = t.unsignedZero) :
    s.zeroSign?.isSome = t.zeroSign?.isSome := by
  have hunsigned (s : Scalar) : s.unsignedZero.zeroSign?.isSome = s.zeroSign?.isSome := by
    cases s with
    | real x =>
      by_cases hx : x.magnitude = 0
      · rw [unsignedZero, if_pos hx, zeroSign?, zeroSign?, if_pos hx,
          if_pos (Binary64.magnitude_zero false)]
        rfl
      · rw [unsignedZero, if_neg hx]
    | _ => rfl
  rw [← hunsigned, h, hunsigned]

namespace Value

mutual

/-- The sign of the first zero among the values of a tree. -/
def zeroSign? : Value → Option Bool
  | .scalar s => s.zeroSign?
  | .back _ => none
  | .array items => itemsZeroSign? items
  | .dict entries => entriesZeroSign? entries

/-- The sign of the first zero in the items. -/
def itemsZeroSign? : List Value → Option Bool
  | [] => none
  | v :: vs => (zeroSign? v).or (itemsZeroSign? vs)

/-- The sign of the first zero in the values of the entries. -/
def entriesZeroSign? : List (Scalar × Value) → Option Bool
  | [] => none
  | (_, v) :: es => (zeroSign? v).or (entriesZeroSign? es)

end

end Value

/-- A second choice adds nothing where there is a first one. -/
theorem eq_or_of_isSome {α : Type} {a b : Option α} (h : b.isSome = true → a.isSome = true) :
    a = a.or b := by
  cases a with
  | some x => rfl
  | none =>
    cases b with
    | none => rfl
    | some y => cases h rfl

theorem findSome?_cons_eq_or {α β : Type} {f : α → Option β} {a : α} {as : List α} :
    (a :: as).findSome? f = (f a).or (as.findSome? f) := by
  rw [List.findSome?_cons]
  cases f a <;> rfl

namespace Value

theorem zeroSign?_array (items : List Value) :
    (array items).zeroSign? = items.findSome? zeroSign? := by
  rw [zeroSign?]
  induction items with
  | nil => rfl
  | cons v vs ih => rw [itemsZeroSign?, findSome?_cons_eq_or, ih]

theorem zeroSign?_dict (entries : List (Scalar × Value)) :
    (dict entries).zeroSign? = entries.findSome? fun e => e.2.zeroSign? := by
  rw [zeroSign?]
  induction entries with
  | nil => rfl
  | cons e es ih =>
    obtain ⟨k, v⟩ := e
    rw [entriesZeroSign?, findSome?_cons_eq_or, ih]

section

variable {sortKeys : Bool}

theorem zeroSign?_arranged_array (items : List Value) :
    ((array items).arranged sortKeys).zeroSign? =
      items.findSome? fun v => (v.arranged sortKeys).zeroSign? := by
  rw [arranged_array, zeroSign?_array, List.findSome?_map]
  rfl

theorem zeroSign?_arranged_dict (entries : List (Scalar × Value)) :
    ((dict entries).arranged sortKeys).zeroSign? =
      (listedEntries sortKeys entries).findSome? fun e => (e.2.arranged sortKeys).zeroSign? := by
  rw [arranged_dict, zeroSign?_dict, List.findSome?_map]
  rfl

/-- The first zero is a zero of the tree. -/
theorem mentions_of_zeroSign? {v : Value} {negative : Bool}
    (h : (v.arranged sortKeys).zeroSign? = some negative) :
    v.Mentions (.real (.ofMagnitude negative 0)) := by
  induction v using Value.induct with
  | scalar s =>
    rw [arranged_scalar] at h
    rw [← Scalar.zeroSign?_eq_some h]
    exact .scalar s
  | array items ih =>
    rw [zeroSign?_arranged_array] at h
    obtain ⟨v, hv, hsign⟩ := List.exists_of_findSome?_eq_some h
    exact .item hv (ih v hv hsign)
  | dict entries ih =>
    rw [zeroSign?_arranged_dict] at h
    obtain ⟨e, he, hsign⟩ := List.exists_of_findSome?_eq_some h
    have hmem : e ∈ entries := (listedEntries_perm sortKeys entries).mem_iff.mp he
    exact .value hmem (ih e hmem hsign)
  | back k => cases sortKeys <;> cases h

/-- A tree without a first zero has no zero at all. -/
theorem over_of_zeroSign?_eq_none {v : Value} (hv : v.IsTree)
    (h : (v.arranged sortKeys).zeroSign? = none) :
    v.Over (fun s => s.zeroSign? = none) fun _ => True := by
  induction hv with
  | scalar =>
    rw [arranged_scalar] at h
    exact .scalar h
  | array _ ih =>
    rw [zeroSign?_arranged_array, List.findSome?_eq_none_iff] at h
    apply Over.array
    intro v hv
    exact ih v hv (h v hv)
  | @dict entries _ _ ih =>
    rw [zeroSign?_arranged_dict, List.findSome?_eq_none_iff] at h
    apply Over.dict trivial
    intro e he
    apply ih e he
    apply h
    exact (listedEntries_perm sortKeys entries).mem_iff.mpr he

end

/-- The tree with the sign of its first zero, as it is listed, in the place of all zeros. -/
def mergeZeros (sortKeys : Bool) (v : Value) : Value :=
  v.mapScalars (Scalar.withZero ((v.arranged sortKeys).zeroSign?.getD false))

/-- A tree with zeros of both signs. -/
def HasBothZeros (v : Value) : Prop :=
  v.Mentions (.real (.ofMagnitude false 0)) ∧ v.Mentions (.real (.ofMagnitude true 0))

/-- A tree stays as it is if all its zeros have the same sign. -/
theorem mergeZeros_eq_self (sortKeys : Bool) {v : Value} (hv : v.IsTree) (h : ¬ v.HasBothZeros) :
    v.mergeZeros sortKeys = v := by
  rw [mergeZeros]
  cases hsign : (v.arranged sortKeys).zeroSign? with
  | none =>
    apply ((over_of_zeroSign?_eq_none hv hsign).mono (fun s hs => ?_) fun _ => id).mapScalars_eq
    apply Scalar.withZero_eq_self
    rintro x rfl hx
    rw [Scalar.zeroSign?, if_pos hx] at hs
    cases hs
  | some negative =>
    have hfirst := mentions_of_zeroSign? hsign
    have hall : ∀ s, v.Mentions s → s.withZero negative = s := by
      intro s hs
      apply Scalar.withZero_eq_self
      rintro x rfl hx
      rw [← Binary64.ofMagnitude_eta x, hx] at hs
      -- a zero with the other sign would be the second one
      by_contra hne
      apply h
      cases negative <;> cases hneg : x.isNegative <;> rw [hneg] at hs hne
      · exact absurd rfl hne
      · exact ⟨hfirst, hs⟩
      · exact ⟨hs, hfirst⟩
      · exact absurd rfl hne
    exact ((over_and_mentions.mpr ⟨hv, hall⟩).mono (fun _ hs => hs.2) fun _ hkeys => hkeys).mapScalars_eq

end Value

/-- The sign of a zero makes no difference to what can be expressed. -/
theorem Encoding.hasForm_withZero (e : Encoding) (negative : Bool) (s : Scalar) :
    e.HasForm (s.withZero negative) ↔ e.HasForm s := by
  cases s with
  | real x =>
    rw [Scalar.withZero]
    split
    · next hx =>
      have hfinite {y : Binary64} (hy : y.magnitude = 0) : y.isFinite = true := by
        rw [Binary64.isFinite, hy]
        decide
      cases e with
      | json => exact iff_of_true (hfinite (Binary64.magnitude_zero negative)) (hfinite hx)
      | _ => exact Iff.rfl
    · exact Iff.rfl
  | _ => exact Iff.rfl

theorem Encoding.expresses_mergeZeros {e : Encoding} {sortKeys sortKeys' : Bool} {v : Value} :
    e.Expresses sortKeys (v.mergeZeros sortKeys') ↔ e.Expresses sortKeys v := by
  rw [Expresses, Value.mergeZeros, Value.over_mapScalars_iff]
  simp only [hasForm_withZero]

namespace Binary

variable {g : Graph} {sortKeys : Bool} {objects objects' : Numbering} {v : Value} {i depth : Nat}

/-! ## Zeros among objects -/

/-- The sign of the zero at a node. -/
def nodeSign? : Node → Option Bool
  | .scalar s => s.zeroSign?
  | .array _ => none
  | .dict _ => none

/-- The sign of the first zero among the objects that have been met. -/
def metZero? (g : Graph) (objects : Numbering) : Option Bool :=
  objects.reverse.findSome? fun o => nodeSign? (g.node o.node)

theorem metZero?_cons (o : Numbered) :
    metZero? g (o :: objects) = (metZero? g objects).or (nodeSign? (g.node o.node)) := by
  rw [metZero?, metZero?, List.reverse_cons, List.findSome?_append, findSome?_cons_eq_or,
    List.findSome?_nil, Option.or_none]

theorem isSome_metZero? {o : Numbered} (ho : o ∈ objects) {s : Scalar}
    (hs : g.node o.node = .scalar s) (hzero : s.zeroSign?.isSome = true) :
    (metZero? g objects).isSome = true := by
  rw [metZero?, List.findSome?_isSome_iff]
  refine ⟨o, List.mem_reverse.mpr ho, ?_⟩
  rw [hs]
  exact hzero

theorem exists_of_metZero? {negative : Bool} (h : metZero? g objects = some negative) :
    ∃ o ∈ objects, g.node o.node = .scalar (.real (.ofMagnitude negative 0)) := by
  rw [metZero?] at h
  obtain ⟨o, ho, hsign⟩ := List.exists_of_findSome?_eq_some h
  refine ⟨o, List.mem_reverse.mp ho, ?_⟩
  cases hnode : g.node o.node with
  | scalar s =>
    rw [hnode] at hsign
    rw [Scalar.zeroSign?_eq_some hsign]
  | array items =>
    rw [hnode] at hsign
    cases hsign
  | dict entries =>
    rw [hnode] at hsign
    cases hsign

/-- What is known of the objects met so far when a tree of some depth is to be numbered: all parts
    of each of them have been met, unless it is one of the containers around the tree. -/
structure Settled (g : Graph) (sortKeys : Bool) (objects : Numbering) (depth : Nat) : Prop
    extends Numbers g objects where
  complete : ∀ o ∈ objects, Complete g sortKeys objects o ∨ ∃ w, g.Holds o.node w ∧ depth < w.depth

namespace Settled

theorem mono (h : Settled g sortKeys objects depth) {depth' : Nat} (hle : depth' ≤ depth) :
    Settled g sortKeys objects depth' := by
  refine ⟨h.toNumbers, fun o ho => (h.complete o ho).imp_right ?_⟩
  rintro ⟨w, hw, hlt⟩
  exact ⟨w, hw, Nat.lt_of_le_of_lt hle hlt⟩

/-- Numbering leaves nothing open that was not open before. -/
theorem grow (h : Settled g sortKeys objects depth) (hgrows : Grows g sortKeys objects objects') :
    Settled g sortKeys objects' depth := by
  refine ⟨hgrows.numbers h.toNumbers, fun o ho => ?_⟩
  rcases hgrows.complete o ho with ho | hcomplete
  · exact (h.complete o ho).imp_left fun hcomplete => hcomplete.mono hgrows.suffix
  · exact .inl hcomplete

/-- Going into a container that is new. -/
theorem down (h : Settled g sortKeys objects v.depth) (hv : g.Holds i v)
    (hnew : identity g i ∉ objects.identities) (hlt : depth < v.depth) :
    Settled g sortKeys (⟨identity g i, i⟩ :: objects) depth := by
  refine ⟨h.toNumbers.cons hnew, List.forall_mem_cons.mpr ⟨.inr ⟨v, hv, hlt⟩, fun o ho => ?_⟩⟩
  refine ((h.mono (Nat.le_of_lt hlt)).complete o ho).imp_left fun hcomplete => ?_
  exact hcomplete.mono (List.suffix_cons _ _)

/-- The parts of a container that has been met have been met, too: it is not around itself. -/
theorem met_parts (h : Settled g sortKeys objects v.depth) (hv : g.Holds i v)
    (hcontainer : identity g i = .node i) (hmet : identity g i ∈ objects.identities) :
    ∀ p ∈ (g.node i).parts, identity g p ∈ objects.identities := by
  obtain ⟨o, ho, hid⟩ := List.mem_map.mp hmet
  obtain rfl : o.node = i := eq_of_identity_node ((h.own o ho).symm.trans (hid.trans hcontainer))
  rcases h.complete o ho with ⟨parts, hparts, hall⟩ | ⟨w, hw, hlt⟩
  · exact fun p hp => hall p ((listedParts_perm hparts).mem_iff.mpr hp)
  · exact absurd rfl (hv.ne_of_depth_lt hw hlt)

/-- Where a tree has been met that has a zero, a zero has been met. -/
theorem isSome_metZero? (h : Settled g sortKeys objects v.depth) (hv : g.Holds i v)
    (hmet : identity g i ∈ objects.identities)
    (hzero : (v.arranged sortKeys).zeroSign?.isSome = true) :
    (metZero? g objects).isSome = true := by
  induction v using Value.induct generalizing i with
  | scalar s =>
    rw [Value.arranged_scalar] at hzero
    -- an equal scalar was met, which can be the other zero
    obtain ⟨o, ho, hid⟩ := List.mem_map.mp hmet
    obtain ⟨t, ht, hts⟩ := exists_scalar_of_identity_eq
      (Graph.node_eq_of_getElem? (Graph.holds_scalar.mp hv)) ((h.own o ho).symm.trans hid)
    exact Binary.isSome_metZero? ho ht ((Scalar.isSome_zeroSign?_congr hts).trans hzero)
  | array vs ih =>
    obtain ⟨ids, hget, hvs⟩ := Graph.holds_array.mp hv
    have hnode := Graph.node_eq_of_getElem? hget
    have hparts := h.met_parts hv (identity_of_array hnode) hmet
    rw [Value.zeroSign?_arranged_array, List.findSome?_isSome_iff] at hzero
    obtain ⟨w, hw, hzero⟩ := hzero
    obtain ⟨p, hp, hpw⟩ := exists_of_forall₂_left hvs.flip hw
    rw [hnode] at hparts
    have hle := Nat.le_of_lt (Value.depth_lt_of_mem_array hw)
    exact ih w hw (h.mono hle) hpw (hparts p hp) hzero
  | dict es ih =>
    obtain ⟨ids, hget, hes⟩ := Graph.holds_dict.mp hv
    have hnode := Graph.node_eq_of_getElem? hget
    have hparts := h.met_parts hv (identity_of_dict hnode) hmet
    rw [Value.zeroSign?_arranged_dict, List.findSome?_isSome_iff] at hzero
    obtain ⟨e, he, hzero⟩ := hzero
    have hmem : e ∈ es := (Value.listedEntries_perm sortKeys es).mem_iff.mp he
    obtain ⟨p, hp, hpe⟩ := exists_of_forall₂_left hes.flip hmem
    rw [hnode] at hparts
    have hle := Nat.le_of_lt (Value.depth_lt_of_mem_dict hmem)
    exact ih e hmem (h.mono hle) hpe.2 (Node.forall_parts_dict.mp hparts p hp).2 hzero
  | back k => exact absurd hv Graph.not_holds_back

end Settled

/-! ## The first zero -/

/-- That numbering trees with some budget meets their zeros in the order in which they are
    listed. -/
def MeetsInOrder (g : Graph) (sortKeys : Bool) (budget : Nat) : Prop :=
  ∀ {i : Nat} {v : Value} {objects objects' : Numbering}, HasTextKeys v → g.Holds i v →
    Settled g sortKeys objects v.depth → number g sortKeys budget objects i = .ok objects' →
    metZero? g objects' = (metZero? g objects).or (v.arranged sortKeys).zeroSign?

theorem MeetsInOrder.foldlM {budget : Nat} (hmeets : MeetsInOrder g sortKeys budget)
    {ps : List Nat} {vs : List Value} (hps : List.Forall₂ g.Holds ps vs)
    (hvs : ∀ v ∈ vs, HasTextKeys v ∧ v.depth ≤ depth) (h : Settled g sortKeys objects depth)
    (hnumber : ps.foldlM (number g sortKeys budget) objects = .ok objects') :
    metZero? g objects' =
      (metZero? g objects).or (vs.findSome? fun v => (v.arranged sortKeys).zeroSign?) := by
  induction hps generalizing objects with
  | nil =>
    obtain rfl := Except.ok.inj hnumber
    rw [List.findSome?_nil, Option.or_none]
  | @cons p v ps vs hpv _ ih =>
    rw [List.foldlM_cons] at hnumber
    obtain ⟨next, hp, hrest⟩ := exists_of_bind_eq_ok hnumber
    obtain ⟨⟨hkeys, hdepth⟩, hvs⟩ := List.forall_mem_cons.mp hvs
    rw [ih hvs (h.grow (number_grows hp).1) hrest, hmeets hkeys hpv (h.mono hdepth) hp,
      findSome?_cons_eq_or, Option.or_assoc]

/-- The keys of a dictionary are numbered in front of the values, and no text is a zero. -/
theorem MeetsInOrder.foldlM_entries {budget : Nat} (hmeets : MeetsInOrder g sortKeys budget)
    {ids : List (Nat × Nat)} {es : List (Scalar × Value)} (hes : List.Forall₂ g.HoldsEntry ids es)
    (hvs : ∀ e ∈ es, e.1.text?.isSome = true ∧ HasTextKeys e.2 ∧ e.2.depth ≤ depth)
    (h : Settled g sortKeys objects depth)
    (hnumber : (ids.map (·.1) ++ ids.map (·.2)).foldlM (number g sortKeys budget) objects =
      .ok objects') :
    metZero? g objects' =
      (metZero? g objects).or (es.findSome? fun e => (e.2.arranged sortKeys).zeroSign?) := by
  have hparts : List.Forall₂ g.Holds (ids.map (·.1) ++ ids.map (·.2))
      (es.map (fun e => Value.scalar e.1) ++ es.map (·.2)) := by
    apply List.rel_append
    · rw [List.forall₂_map_left_iff, List.forall₂_map_right_iff]
      exact hes.imp fun p e hpe => Graph.holds_scalar.mpr hpe.1
    · rw [List.forall₂_map_left_iff, List.forall₂_map_right_iff]
      exact hes.imp fun p e hpe => hpe.2
  have hall : ∀ v ∈ es.map (fun e => Value.scalar e.1) ++ es.map (·.2),
      HasTextKeys v ∧ v.depth ≤ depth := by
    rw [List.forall_mem_append, List.forall_mem_map, List.forall_mem_map]
    constructor
    · intro e _
      exact ⟨.scalar trivial, Nat.zero_le _⟩
    · intro e he
      exact (hvs e he).2
  have hkeys : (es.map fun e => Value.scalar e.1).findSome?
      (fun v => (v.arranged sortKeys).zeroSign?) = none := by
    rw [List.findSome?_eq_none_iff, List.forall_mem_map]
    intro e he
    rw [Value.arranged_scalar, Scalar.eq_text_keyText (hvs e he).1]
    rfl
  rw [hmeets.foldlM hparts hall h hnumber, List.findSome?_append, hkeys, Option.none_or,
    List.findSome?_map]
  rfl

theorem meetsInOrder (g : Graph) (sortKeys : Bool) (budget : Nat) :
    MeetsInOrder g sortKeys budget := by
  induction budget with
  | zero =>
    intro i v objects objects' _ _ _ h
    cases h
  | succ budget ih =>
    intro i v objects objects' hkeys hv hsettled h
    rw [number_succ] at h
    by_cases hseen : (objects.number? (identity g i)).isSome = true
    · rw [if_pos hseen] at h
      obtain rfl := Except.ok.inj h
      -- the zeros of a tree that was met before have been met with it
      exact eq_or_of_isSome
        (hsettled.isSome_metZero? hv (Numbering.number?_isSome.mp hseen))
    rw [if_neg hseen] at h
    have hnew : identity g i ∉ objects.identities := fun hmem =>
      hseen (Numbering.number?_isSome.mpr hmem)
    obtain ⟨parts, hparts, h⟩ := exists_of_bind_eq_ok h
    cases hkeys with
    | @scalar s _ =>
      rw [Graph.node_eq_of_getElem? (Graph.holds_scalar.mp hv)] at hparts
      obtain rfl := Except.ok.inj hparts
      obtain rfl := Except.ok.inj h
      rw [metZero?_cons, Value.arranged_scalar, Graph.node_eq_of_getElem? (Graph.holds_scalar.mp hv)]
      rfl
    | @array vs hkeys =>
      obtain ⟨ids, hget, hvs⟩ := Graph.holds_array.mp hv
      have hnode := Graph.node_eq_of_getElem? hget
      rw [hnode] at hparts
      obtain rfl := Except.ok.inj hparts
      obtain ⟨n, hn, hdepth⟩ := Value.exists_depth_eq_succ_of_array (Nat.le_refl (Value.array vs).depth)
      -- the container is no zero, and it is open while its items are numbered
      have hdown : Settled g sortKeys (⟨identity g i, i⟩ :: objects) n :=
        hsettled.down hv hnew (by omega)
      rw [ih.foldlM hvs (fun w hw => ⟨hkeys w hw, hdepth w hw⟩) hdown h, metZero?_cons, hnode,
        Value.zeroSign?_arranged_array]
      rw [nodeSign?, Option.or_none]
    | @dict es htext hkeys =>
      obtain ⟨ids, hget, hes⟩ := Graph.holds_dict.mp hv
      have hnode := Graph.node_eq_of_getElem? hget
      obtain ⟨ids', -, hparts', hes'⟩ := listedParts_of_dict sortKeys hget hes htext
      obtain rfl := Except.ok.inj (hparts.symm.trans hparts')
      obtain ⟨n, hn, hdepth⟩ := Value.exists_depth_eq_succ_of_dict (Nat.le_refl (Value.dict es).depth)
      have hdown : Settled g sortKeys (⟨identity g i, i⟩ :: objects) n :=
        hsettled.down hv hnew (by omega)
      have hlisted : ∀ e ∈ Value.listedEntries sortKeys es,
          e.1.text?.isSome = true ∧ HasTextKeys e.2 ∧ e.2.depth ≤ n := by
        intro e he
        have hmem := (Value.listedEntries_perm sortKeys es).mem_iff.mp he
        exact ⟨htext e.1 (List.mem_map_of_mem hmem), hkeys e hmem, hdepth e hmem⟩
      rw [ih.foldlM_entries hes' hlisted hdown h, metZero?_cons, hnode,
        Value.zeroSign?_arranged_dict]
      rw [nodeSign?, Option.or_none]

/-- The zeros of a list have the sign of the first zero of the tree. -/
theorem Records.zeroSign {rs : List Record} (h : Records g sortKeys objects rs)
    (hnumber : numberAll g sortKeys = .ok objects) (hv : g.Holds g.root v) (hkeys : HasTextKeys v) :
    ZeroSign g objects ((v.arranged sortKeys).zeroSign?.getD false) := by
  have hstart : Settled g sortKeys [] v.depth :=
    ⟨⟨List.nodup_nil, List.forall_mem_nil _⟩, List.forall_mem_nil _⟩
  have hfirst : metZero? g objects = (v.arranged sortKeys).zeroSign? :=
    meetsInOrder g sortKeys numberingBudget hkeys hv hstart hnumber
  rw [← hfirst]
  intro o ho x hx hzero
  obtain ⟨first, hmet⟩ : ∃ first, metZero? g objects = some first := by
    apply Option.isSome_iff_exists.mp
    apply isSome_metZero? ho hx
    rw [Scalar.zeroSign?, if_pos hzero]
    rfl
  -- the zero that was met first is the only one
  obtain ⟨p, hp, hfirst⟩ := exists_of_metZero? hmet
  obtain ⟨negative, hsign⟩ := h.exists_zeroSign
  have hnegative := hsign p hp _ hfirst (Binary64.magnitude_zero first)
  rw [Binary64.isNegative_ofMagnitude (by decide)] at hnegative
  rw [hmet, Option.getD_some, hsign o ho x hx hzero, hnegative]

end Binary

end PropertyList
