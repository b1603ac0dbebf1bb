/-
  PropertyList.Proofs.Binary.Trees

  What is known of a tree that was read from a binary list.  A document that unfolds
  without a cycle holds the tree that it unfolds to; no two keys of a dictionary in
  it name the same entry, and its dates are valid.
-/
import PropertyList.Proofs.Binary.Faults
import PropertyList.Proofs.Graph.Unfolding

namespace PropertyList

/-- What holds of a tree in two ways holds of it in both. -/
theorem Value.Over.and {P P' : Scalar → Prop} {K K' : List Scalar → Prop} {v : Value}
    (h : v.Over P K) (h' : v.Over P' K') :
    v.Over (fun s => P s ∧ P' s) (fun keys => K keys ∧ K' keys) := by
  induction h with
  | scalar hs => exact .scalar ⟨hs, over_scalar_iff.mp h'⟩
  | array _ ih => exact .array fun v hv => ih v hv (over_array_iff.mp h' v hv)
  | dict hkeys _ ih =>
    obtain ⟨hkeys', hentries'⟩ := over_dict_iff.mp h'
    exact .dict ⟨hkeys, hkeys'⟩ fun e he => ih e he (hentries' e he)

namespace Graph

variable {g : Graph} {i fuel : Nat} {path : List Nat} {v : Value}

/-! ## From a graph without cycles to its tree -/

/-- Where a well-formed graph unfolds to a tree, it holds that tree. -/
theorem WellFormed.holds_unfold (hg : g.WellFormed) (hway : g.OnWay fuel path)
    (hi : i < g.nodes.size) (htree : (g.unfold fuel path i).IsTree) :
    g.Holds i (g.unfold fuel path i) := by
  induction fuel generalizing path i with
  | zero => exact absurd hway.pos (Nat.lt_irrefl 0)
  | succ fuel ih =>
    have hget : g.nodes[i]? = some (g.node i) := by
      rw [node, Array.getElem?_eq_getElem hi, Option.getD_some]
    -- parts of nodes are nodes, so the way down stays in the graph
    have hparts {x : Node} (hx : g.node i = x) : ∀ p ∈ x.parts, p < g.nodes.size :=
      hg.parts i x (hx ▸ hget)
    cases hnode : g.node i with
    | scalar s =>
      rw [unfold, hnode]
      exact holds_scalar.mpr (hnode ▸ hget)
    | array items =>
      rw [Value.IsTree, over_unfold_array_iff hnode] at htree
      obtain ⟨hnot, hitems⟩ := htree
      rw [unfold_array hnode hnot]
      refine holds_array.mpr ⟨items, hnode ▸ hget, ?_⟩
      rw [List.forall₂_map_right_iff, List.forall₂_same]
      exact fun p hp => ih (hway.down hi hnot) (hparts hnode p hp) (hitems p hp)
    | dict entries =>
      rw [Value.IsTree, over_unfold_dict_iff hnode] at htree
      obtain ⟨hnot, -, hvalues⟩ := htree
      rw [unfold_dict hnode hnot]
      refine holds_dict.mpr ⟨entries, hnode ▸ hget, ?_⟩
      rw [List.forall₂_map_right_iff, List.forall₂_same]
      intro e he
      obtain ⟨s, hs⟩ := hg.key i entries (hnode ▸ hget) e he
      have hvalue := (Node.forall_parts_dict.mp (hparts hnode) e he).2
      exact ⟨by rw [hs, scalarAt_eq_of_getElem? hs], ih (hway.down hi hnot) hvalue (hvalues e he)⟩

theorem WellFormed.holds_value (hg : g.WellFormed) (hroot : g.root < g.nodes.size)
    (htree : g.value.IsTree) : g.Holds g.root g.value :=
  hg.holds_unfold (.start g) hroot htree

/-! ## Keys -/

/-- Where the keys of a graph are told apart, so are those of a tree in it. -/
theorem WellKeyed.over_apart (hg : g.WellKeyed) (hi : g.Reaches i) (hv : g.Holds i v) :
    v.Over (fun _ => True) fun keys => keys.Pairwise fun a b => a.sameKey b = false := by
  induction v using Value.induct generalizing i with
  | scalar s => exact .scalar trivial
  | array vs ih =>
    obtain ⟨ids, hget, hvs⟩ := holds_array.mp hv
    refine .array fun w hw => ?_
    obtain ⟨p, hp, hpw⟩ := exists_of_forall₂_left hvs.flip hw
    exact ih w hw (hi.item hget hp) hpw
  | dict es ih =>
    obtain ⟨ids, hget, hes⟩ := holds_dict.mp hv
    refine .dict ?_ fun e he => ?_
    -- the keys of the entries are those at their nodes, which are apart
    · have hkeys : es.map (·.1) = ids.map fun p => g.scalarAt p.1 :=
        (map_eq_map_of_forall₂ hes fun p e hpe => scalarAt_eq_of_getElem? hpe.1).symm
      rw [hkeys, List.pairwise_map]
      refine (hg.apart i ids hi (node_eq_of_getElem? hget)).imp fun h => ?_
      exact (Bool.or_eq_false_iff.mp h).2
    · obtain ⟨p, hp, hpe⟩ := exists_of_forall₂_left hes.flip he
      exact ih e he (hi.entry hget hp).2 hpe.2
  | back k => exact absurd hv not_holds_back

end Graph

/-- Texts that name different entries are distinct. -/
theorem textKeys_of_apart {Q : Text → Prop} {keys : List Scalar}
    (hapart : keys.Pairwise fun a b => a.sameKey b = false)
    (htext : ∀ k ∈ keys, ∃ t, k = .text t ∧ Q t) : TextKeys Q keys where
  nodup := by
    refine hapart.imp_of_mem fun {a b} ha _ hab heq => ?_
    obtain ⟨t, rfl, -⟩ := htext a ha
    rw [← heq, Scalar.sameKey_text, decide_eq_true rfl] at hab
    cases hab
  text := htext

/-- A tree with texts as keys in a graph whose keys are told apart. -/
theorem Graph.WellKeyed.isTextKeyed {g : Graph} {v : Value} (hg : g.WellKeyed)
    (hv : g.Holds g.root v) (hkeys : Binary.HasTextKeys v) : v.IsTextKeyed := by
  refine (hkeys.and (hg.over_apart .root hv)).mono (fun _ _ => trivial) ?_
  rintro keys ⟨htext, hapart⟩
  exact textKeys_of_apart hapart fun k hk => ⟨k.keyText, Scalar.eq_text_keyText (htext k hk), trivial⟩

namespace Binary

variable {bytes : List UInt8} {g : Graph}

/-- A document that was read and is a tree: no two keys of a dictionary name the same entry, and
    all dates are valid. -/
theorem over_of_read (h : read bytes = .ok g) (htree : g.value.IsTree) :
    g.value.Over (fun _ => True) (fun keys => keys.Pairwise fun a b => a.sameKey b = false) ∧
      ∀ t, g.value.Mentions (.date t) → t.IsValid := by
  obtain ⟨hg, hroot⟩ := wellFormed_of_read h
  have hvalue := hg.holds_value hroot htree
  refine ⟨hg.wellKeyed.over_apart .root hvalue, fun t ht => ?_⟩
  obtain ⟨j, -, hj⟩ := hvalue.exists_scalar .root ht
  exact isValid_of_read h hj

end Binary

end PropertyList
