/-
  PropertyList.Proofs.Graph.Scalars

  Graphs whose scalars are changed.  If text stays as it is, so do the keys, and the
  trees at the nodes change in their scalars only.
-/
import PropertyList.Proofs.Graph.Holds
import PropertyList.Proofs.Value.Scalars

namespace PropertyList

/-- A node with `f` applied to it if it is a scalar. -/
def Node.mapScalar (f : Scalar → Scalar) : Node → Node
  | .scalar s => .scalar (f s)
  | .array items => .array items
  | .dict entries => .dict entries

@[simp] theorem Node.parts_mapScalar (f : Scalar → Scalar) (x : Node) :
    (x.mapScalar f).parts = x.parts := by
  cases x <;> rfl

namespace Graph

/-- The graph with `f` applied to all scalars. -/
def mapScalars (f : Scalar → Scalar) (g : Graph) : Graph := ⟨g.nodes.map (Node.mapScalar f), g.root⟩

variable {f : Scalar → Scalar} {g : Graph} {i : Nat}

@[simp] theorem size_mapScalars (f : Scalar → Scalar) (g : Graph) :
    (g.mapScalars f).nodes.size = g.nodes.size := Array.size_map

theorem getElem?_mapScalars (f : Scalar → Scalar) (g : Graph) (i : Nat) :
    (g.mapScalars f).nodes[i]? = g.nodes[i]?.map (Node.mapScalar f) := Array.getElem?_map

theorem getElem?_mapScalars_text (hf : ∀ t, f (.text t) = .text t) {k : Scalar}
    (hk : k.text?.isSome = true) (h : g.nodes[i]? = some (.scalar k)) :
    (g.mapScalars f).nodes[i]? = some (.scalar k) := by
  rw [Scalar.eq_text_keyText hk] at h ⊢
  rw [getElem?_mapScalars, h, Option.map_some, Node.mapScalar, hf]

/-- The tree at a node changes like the scalars, if its keys are text. -/
theorem Holds.mapScalars (hf : ∀ t, f (.text t) = .text t) {v : Value}
    (hkeys : v.Over (fun _ => True) fun keys => ∀ k ∈ keys, k.text?.isSome = true)
    (hv : g.Holds i v) : (g.mapScalars f).Holds i (v.mapScalars f) := by
  induction hkeys generalizing i with
  | @scalar s _ =>
    rw [Value.mapScalars_scalar, holds_scalar, getElem?_mapScalars, holds_scalar.mp hv]
    rfl
  | @array vs _ ih =>
    obtain ⟨ids, hget, hids⟩ := holds_array.mp hv
    rw [Value.mapScalars_array]
    refine holds_array.mpr ⟨ids, ?_, ?_⟩
    · rw [getElem?_mapScalars, hget]
      rfl
    · rw [List.forall₂_map_right_iff]
      exact forall₂_imp_of_mem hids fun p w _ hw hpw => ih w hw hpw
  | @dict es hkeys _ ih =>
    obtain ⟨ids, hget, hids⟩ := holds_dict.mp hv
    rw [Value.mapScalars_dict]
    refine holds_dict.mpr ⟨ids, ?_, ?_⟩
    · rw [getElem?_mapScalars, hget]
      rfl
    · rw [List.forall₂_map_right_iff]
      -- the node of a key holds a text, which is left as it is
      refine forall₂_imp_of_mem hids fun p e _ he hpe => ⟨?_, ih e he hpe.2⟩
      exact getElem?_mapScalars_text hf (hkeys e.1 (List.mem_map_of_mem he)) hpe.1

end Graph

end PropertyList
