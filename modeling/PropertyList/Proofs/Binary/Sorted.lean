/-
  PropertyList.Proofs.Binary.Sorted

  Sorted entries make binary lists canonical: trees that differ only in the order
  of entries are written as the same bytes.  Two nodes are matched if the same way
  leads to them from the roots; as nothing is shared, there is one way to a node.
-/
import PropertyList.Proofs.Binary.Simulation
import PropertyList.Proofs.Graph.OfValue

namespace PropertyList.Binary

/-! ## The way to a node -/

/-- Nodes of two graphs to which the same way leads: at each container it goes on to the parts at
    the same place, in the order in which they are written. -/
inductive Matched (g g' : Graph) (sortKeys : Bool) : Nat → Nat → Prop where
  | root : Matched g g' sortKeys g.root g'.root
  | part {i j p q : Nat} {ps qs : List Nat} (h : Matched g g' sortKeys i j)
      (hps : listedParts g sortKeys (g.node i) = .ok ps)
      (hqs : listedParts g' sortKeys (g'.node j) = .ok qs) (hpq : (p, q) ∈ ps.zip qs) :
      Matched g g' sortKeys p q

section Matched

variable {g g' : Graph} {sortKeys : Bool} {i j : Nat} {ps : List Nat}

/-- Only nodes that are there have parts. -/
theorem getElem?_of_mem_listedParts {p : Nat} (h : listedParts g sortKeys (g.node i) = .ok ps)
    (hp : p ∈ ps) : g.nodes[i]? = some (g.node i) ∧ p ∈ (g.node i).parts := by
  refine ⟨?_, (listedParts_perm h).mem_iff.mp hp⟩
  cases hnode : g.nodes[i]? with
  | some x => rw [Graph.node_eq_of_getElem? hnode]
  | none =>
    have hnull : g.node i = .scalar .null := by rw [Graph.node, hnode, Option.getD_none]
    rw [hnull] at h
    obtain rfl := Except.ok.inj h
    cases hp

theorem eq_of_mem_zip {α β : Type} {as : List α} {bs : List β} (has : as.Nodup) {a : α} {b c : β}
    (hb : (a, b) ∈ as.zip bs) (hc : (a, c) ∈ as.zip bs) : b = c := by
  obtain ⟨n, hn⟩ := List.mem_iff_getElem?.mp hb
  obtain ⟨m, hm⟩ := List.mem_iff_getElem?.mp hc
  obtain ⟨hna, hnb⟩ := List.getElem?_zip_eq_some.mp hn
  obtain ⟨hma, hmc⟩ := List.getElem?_zip_eq_some.mp hm
  have hlt : n < as.length := (List.getElem?_eq_some_iff.mp hna).1
  obtain rfl := (List.getElem?_inj hlt has).mp (hna.trans hma.symm)
  exact Option.some.inj (hnb.symm.trans hmc)

theorem Matched.symm (h : Matched g g' sortKeys i j) : Matched g' g sortKeys j i := by
  induction h with
  | root => exact .root
  | part _ hps hqs hpq ih =>
    refine .part ih hqs hps ?_
    rw [← List.zip_swap]
    exact List.mem_map_of_mem hpq

/-- In a graph without sharing one way leads to a node. -/
theorem Matched.unique (hg : g.Unshared) {j' : Nat} (h : Matched g g' sortKeys i j)
    (h' : Matched g g' sortKeys i j') : j = j' := by
  induction h generalizing j' with
  | root =>
    generalize hroot : g.root = r at h'
    cases h' with
    | root => rfl
    | part _ hps _ hpq =>
      obtain ⟨hget, hmem⟩ := getElem?_of_mem_listedParts hps (List.of_mem_zip hpq).1
      exact absurd (hroot ▸ hmem) (hg.root_not_mem hget)
  | @part i j p q ps qs _ hps hqs hpq ih =>
    obtain ⟨hget, hmem⟩ := getElem?_of_mem_listedParts hps (List.of_mem_zip hpq).1
    generalize hp : p = r at h'
    cases h' with
    | root => exact absurd (hp ▸ hmem) (hg.root_not_mem hget)
    | @part i' j'' p' q' ps' qs' h' hps' hqs' hpq' =>
      subst hp
      obtain ⟨hget', hmem'⟩ := getElem?_of_mem_listedParts hps' (List.of_mem_zip hpq').1
      -- both ways come from the one node that this is a part of, at the same place
      obtain rfl := hg.eq_of_mem_parts hget hget' hmem hmem'
      obtain rfl := ih h'
      obtain rfl := Except.ok.inj (hps.symm.trans hps')
      obtain rfl := Except.ok.inj (hqs.symm.trans hqs')
      exact eq_of_mem_zip ((listedParts_perm hps).nodup_iff.mpr (hg.nodup_parts hget)) hpq hpq'

end Matched

/-! ## Trees in another order -/

/-- Two lists that match lists with the same image match each other. -/
theorem forall₂_of_map_eq {α β γ δ ε : Type} {R : α → β → Prop} {S : γ → δ → Prop}
    {T : α → γ → Prop} {f : β → ε} {f' : δ → ε} {as : List α} {bs : List β} {cs : List γ}
    {ds : List δ} (h : List.Forall₂ R as bs) (h' : List.Forall₂ S cs ds)
    (hmap : bs.map f = ds.map f')
    (himp : ∀ a b c d, b ∈ bs → d ∈ ds → R a b → S c d → f b = f' d → T a c) :
    List.Forall₂ T as cs := by
  induction h generalizing cs ds with
  | nil =>
    cases h' with
    | nil => exact .nil
    | cons => cases hmap
  | @cons a b as bs hab _ ih =>
    cases h' with
    | nil => cases hmap
    | @cons c d cs ds hcd hcds =>
      obtain ⟨hbd, hrest⟩ := List.cons.inj hmap
      refine .cons (himp a b c d List.mem_cons_self List.mem_cons_self hab hcd hbd) ?_
      exact ih hcds hrest fun a b c d hb hd =>
        himp a b c d (List.mem_cons_of_mem _ hb) (List.mem_cons_of_mem _ hd)

/-- The trees at two nodes are the same tree when they are sorted. -/
def HoldSorted (g g' : Graph) (i j : Nat) : Prop :=
  ∃ v w, g.Holds i v ∧ g'.Holds j w ∧ HasTextKeys v ∧ HasTextKeys w ∧ v.sorted = w.sorted

section HoldSorted

variable {g g' : Graph} {i j : Nat}

theorem holdSorted_key {p q : Nat} {k : Scalar} (hp : g.nodes[p]? = some (.scalar k))
    (hq : g'.nodes[q]? = some (.scalar k)) : HoldSorted g g' p q :=
  ⟨.scalar k, .scalar k, Graph.holds_scalar.mpr hp, Graph.holds_scalar.mpr hq, .scalar trivial,
    .scalar trivial, rfl⟩

theorem alike_array {vs ws : List Value} (hv : g.Holds i (.array vs)) (hw : g'.Holds j (.array ws))
    (hkeys : ∀ v ∈ vs, HasTextKeys v) (hkeys' : ∀ w ∈ ws, HasTextKeys w)
    (heq : vs.map (Value.arranged true) = ws.map (Value.arranged true)) :
    Alike g g' true (HoldSorted g g') (g.node i) (g'.node j) := by
  obtain ⟨ids, hget, hids⟩ := Graph.holds_array.mp hv
  obtain ⟨ids', hget', hids'⟩ := Graph.holds_array.mp hw
  rw [Graph.node_eq_of_getElem? hget, Graph.node_eq_of_getElem? hget']
  refine .array (forall₂_of_map_eq hids hids' heq ?_)
  intro p v q w hv hw hpv hqw hvw
  exact ⟨v, w, hpv, hqw, hkeys v hv, hkeys' w hw, hvw⟩

theorem alike_dict {es fs : List (Scalar × Value)} (hv : g.Holds i (.dict es))
    (hw : g'.Holds j (.dict fs)) (hkeys : HasTextKeys (.dict es)) (hkeys' : HasTextKeys (.dict fs))
    (heq : (Value.listedEntries true es).map (fun e => (e.1, e.2.arranged true)) =
      (Value.listedEntries true fs).map fun e => (e.1, e.2.arranged true)) :
    Alike g g' true (HoldSorted g g') (g.node i) (g'.node j) := by
  obtain ⟨htext, hes⟩ := Value.over_dict_iff.mp hkeys
  obtain ⟨htext', hfs⟩ := Value.over_dict_iff.mp hkeys'
  obtain ⟨ids, hget, hids⟩ := Graph.holds_dict.mp hv
  obtain ⟨ids', hget', hids'⟩ := Graph.holds_dict.mp hw
  obtain ⟨listed, hordered, hlisted⟩ := orderedEntries_of_forall₂ true hids htext
  obtain ⟨listed', hordered', hlisted'⟩ := orderedEntries_of_forall₂ true hids' htext'
  rw [Graph.node_eq_of_getElem? hget, Graph.node_eq_of_getElem? hget']
  refine .dict hordered hordered' (forall₂_of_map_eq hlisted hlisted' heq ?_)
  intro p e q f he hf hpe hqf hef
  obtain ⟨hkey, hvalue⟩ := Prod.mk.inj hef
  -- sorting the entries kept them, so what is known of the entries of the trees applies
  have hmem : e ∈ es := (Value.listedEntries_perm true es).mem_iff.mp he
  have hmem' : f ∈ fs := (Value.listedEntries_perm true fs).mem_iff.mp hf
  refine ⟨holdSorted_key hpe.1 (hkey ▸ hqf.1), e.2, f.2, hpe.2, hqf.2, ?_, ?_, hvalue⟩
  · exact hes e hmem
  · exact hfs f hmem'

/-- The parts of such nodes, in the order in which they are written, are such nodes again. -/
theorem HoldSorted.alike (h : HoldSorted g g' i j) :
    Alike g g' true (HoldSorted g g') (g.node i) (g'.node j) ∧
      ∀ s, g.node i = .scalar s → g'.node j = .scalar s := by
  obtain ⟨v, w, hv, hw, hkeys, hkeys', heq⟩ := h
  rw [← Value.arranged_true, ← Value.arranged_true] at heq
  -- sorting keeps the kind of a tree, so both are of one kind
  cases hkeys with
  | @scalar s _ =>
    rw [Value.arranged_scalar] at heq
    cases hkeys' with
    | @scalar t _ =>
      rw [Value.arranged_scalar] at heq
      obtain rfl := Value.scalar.inj heq
      have hnode := Graph.node_eq_of_getElem? (Graph.holds_scalar.mp hv)
      have hnode' := Graph.node_eq_of_getElem? (Graph.holds_scalar.mp hw)
      rw [hnode, hnode']
      exact ⟨.scalar rfl, fun _ h => h⟩
    | array => rw [Value.arranged_array] at heq; cases heq
    | dict => rw [Value.arranged_dict] at heq; cases heq
  | @array vs hvs =>
    rw [Value.arranged_array] at heq
    cases hkeys' with
    | scalar => rw [Value.arranged_scalar] at heq; cases heq
    | @array ws hws =>
      rw [Value.arranged_array] at heq
      refine ⟨alike_array hv hw hvs hws (Value.array.inj heq), ?_⟩
      obtain ⟨ids, hget, -⟩ := Graph.holds_array.mp hv
      rw [Graph.node_eq_of_getElem? hget]
      rintro s ⟨⟩
    | dict => rw [Value.arranged_dict] at heq; cases heq
  | @dict es htext hes =>
    rw [Value.arranged_dict] at heq
    cases hkeys' with
    | scalar => rw [Value.arranged_scalar] at heq; cases heq
    | array => rw [Value.arranged_array] at heq; cases heq
    | @dict fs htext' hfs =>
      rw [Value.arranged_dict] at heq
      refine ⟨alike_dict hv hw (.dict htext hes) (.dict htext' hfs) (Value.dict.inj heq), ?_⟩
      obtain ⟨ids, hget, -⟩ := Graph.holds_dict.mp hv
      rw [Graph.node_eq_of_getElem? hget]
      rintro s ⟨⟩

/-- What is known of all parts at the same place may be added to what relates them. -/
theorem Alike.and {sortKeys : Bool} {R T : Nat → Nat → Prop} {x y : Node}
    (h : Alike g g' sortKeys R x y)
    (hparts : ∀ ps qs, listedParts g sortKeys x = .ok ps → listedParts g' sortKeys y = .ok qs →
      ∀ p q, (p, q) ∈ ps.zip qs → T p q) :
    Alike g g' sortKeys (fun p q => T p q ∧ R p q) x y := by
  cases h with
  | scalar hst => exact .scalar hst
  | @array items items' hitems =>
    refine .array (List.forall₂_iff_zip.mpr ⟨hitems.length_eq, fun hpq => ?_⟩)
    exact ⟨hparts items items' rfl rfl _ _ hpq, (List.forall₂_iff_zip.mp hitems).2 hpq⟩
  | @dict entries entries' es es' hordered hordered' hes =>
    have hzip := hparts (es.map (·.1) ++ es.map (·.2)) (es'.map (·.1) ++ es'.map (·.2))
      (by rw [listedParts, hordered]; rfl) (by rw [listedParts, hordered']; rfl)
    have hlength : (es.map (·.1)).length = (es'.map (·.1)).length := by
      rw [List.length_map, List.length_map, hes.length_eq]
    rw [List.zip_append hlength, List.zip_map, List.zip_map] at hzip
    refine .dict hordered hordered' (List.forall₂_iff_zip.mpr ⟨hes.length_eq, fun hef => ?_⟩)
    obtain ⟨hkey, hvalue⟩ := (List.forall₂_iff_zip.mp hes).2 hef
    refine ⟨⟨hzip _ _ ?_, hkey⟩, hzip _ _ ?_, hvalue⟩
    · exact List.mem_append_left _ (List.mem_map_of_mem hef)
    · exact List.mem_append_right _ (List.mem_map_of_mem hef)

end HoldSorted

/-! ## What is written -/

section Write

variable {g g' : Graph} {v w : Value} (hg : g.Unshared) (hg' : g'.Unshared)
  (hv : g.Holds g.root v) (hw : g'.Holds g'.root w) (hkeys : HasTextKeys v)
  (hkeys' : HasTextKeys w) (h : v.sorted = w.sorted)

include hg hg' hv hw hkeys hkeys' h

/-- Where nothing is shared, trees that are the same when sorted are written as the same sorted
    list, if one of them can be numbered. -/
theorem write_sorted_eq {objects : Numbering} (hnumber : numberAll g true = .ok objects) :
    write g' true = write g true := by
  have hsimulates : Simulates g g' true objects fun i j =>
      Matched g g' true i j ∧ HoldSorted g g' i j := by
    refine ⟨?_, ?_, ?_⟩
    · rintro i j ⟨hmatched, hholds⟩
      exact hholds.alike.1.and fun ps qs hps hqs p q hpq => .part hmatched hps hqs hpq
    · rintro i j s ⟨-, hholds⟩ - hs
      exact hholds.alike.2 s hs
    · rintro i j i' j' ⟨hmatched, -⟩ ⟨hmatched', -⟩ - -
      constructor
      · rintro rfl
        exact hmatched.unique hg hmatched'
      · rintro rfl
        exact hmatched.symm.unique hg' hmatched'.symm
  exact hsimulates.write_eq ⟨.root, v, w, hv, hw, hkeys, hkeys', h⟩ hnumber

/-- Such trees have the same sorted list, or neither has one because they are too deep. -/
theorem write_sorted_congr : write g true = write g' true := by
  -- of trees with text keys, numbering has nothing to report but their depth
  have hdeep {g : Graph} {u : Value} (hu : g.Holds g.root u) (hkeys : HasTextKeys u)
      {f : NumberingFault} (hnumber : numberAll g true = .error f) : f = .tooDeep := by
    rcases number_error hu hnumber with ⟨hf, -⟩ | ⟨-, hnot⟩
    · exact hf
    · exact absurd hkeys hnot
  cases hnumber : numberAll g true with
  | ok objects => exact (write_sorted_eq hg hg' hv hw hkeys hkeys' h hnumber).symm
  | error f =>
    cases hnumber' : numberAll g' true with
    | ok objects' => exact write_sorted_eq hg' hg hw hv hkeys' hkeys h.symm hnumber'
    | error f' =>
      obtain rfl := hdeep hv hkeys hnumber
      obtain rfl := hdeep hw hkeys' hnumber'
      rw [write, write, hnumber, hnumber']
      rfl

end Write

end PropertyList.Binary
