/-
  PropertyList.Proofs.Graph.OfValue

  The graph made of a tree.  It holds that tree, and it is `Unshared`: the root
  is a part of nothing, and no node is a part of anything in two places.  Adding
  a value appends a run of nodes; the roots of what was added, together with all
  parts of its nodes, are exactly the numbers of that run.
-/
import PropertyList.Proofs.Graph.Holds

namespace PropertyList

namespace Graph

/-! ## Runs of nodes -/

/-- The nodes `nodes'` are `nodes` and a run behind them, in which `roots` are the numbers that
    are parts of no node of the run. -/
structure Grown (nodes : Array Node) (roots : List Nat) (nodes' : Array Node)
    (added : List Node) : Prop where
  toList : nodes'.toList = nodes.toList ++ added
  parts : (roots ++ added.flatMap Node.parts).Perm (List.range' nodes.size added.length)

namespace Grown

variable {nodes nodes₁ nodes₂ : Array Node} {roots roots₁ roots₂ : List Nat}
  {added added₁ added₂ : List Node}

theorem size (h : Grown nodes roots nodes₁ added) : nodes₁.size = nodes.size + added.length := by
  rw [← Array.length_toList, h.toList, List.length_append, Array.length_toList]

theorem refl (nodes : Array Node) : Grown nodes [] nodes [] :=
  ⟨(List.append_nil _).symm, .refl _⟩

theorem push (nodes : Array Node) (s : Scalar) :
    Grown nodes [nodes.size] (nodes.push (.scalar s)) [.scalar s] :=
  ⟨Array.toList_push, .refl _⟩

theorem trans (h₁ : Grown nodes roots₁ nodes₁ added₁) (h₂ : Grown nodes₁ roots₂ nodes₂ added₂) :
    Grown nodes (roots₁ ++ roots₂) nodes₂ (added₁ ++ added₂) where
  toList := by rw [h₂.toList, h₁.toList, List.append_assoc]
  parts := by
    rw [List.flatMap_append, List.length_append, ← List.range'_append_1, ← h₁.size]
    refine List.Perm.trans ?_ (h₁.parts.append h₂.parts)
    simp only [List.append_assoc]
    refine List.Perm.append_left roots₁ ?_
    rw [← List.append_assoc, ← List.append_assoc]
    exact List.perm_append_comm.append_right _

/-- A container that was put in front of its parts gets their numbers. -/
theorem close {x y : Node} (h : Grown (nodes.push x) y.parts nodes₁ added) :
    Grown nodes [nodes.size] (nodes₁.setIfInBounds nodes.size y) (y :: added) where
  toList := by
    rw [Array.toList_setIfInBounds, h.toList, Array.toList_push, List.append_assoc]
    rw [List.set_append_right _ _ (by simp)]
    simp
  parts := by
    rw [List.flatMap_cons, List.length_cons, List.range'_succ]
    have hparts := h.parts
    rw [Array.size_push] at hparts
    exact hparts.cons _

end Grown

/-- Something holds of every graph in which a run of nodes stands at a given place. -/
def Stands (start : Nat) (added : List Node) (P : Graph → Prop) : Prop :=
  ∀ (front back : List Node) (root : Nat), front.length = start →
    P ⟨(front ++ added ++ back).toArray, root⟩

namespace Stands

variable {start : Nat} {added added' : List Node} {P Q : Graph → Prop}

theorem append_right (h : Stands start added P) (added' : List Node) :
    Stands start (added ++ added') P := by
  intro front back root hfront
  have h' := h front (added' ++ back) root hfront
  simpa only [List.append_assoc] using h'

theorem append_left (added : List Node) (h : Stands (start + added.length) added' P) :
    Stands start (added ++ added') P := by
  intro front back root hfront
  have h' := h (front ++ added) back root (by rw [List.length_append, hfront])
  simpa only [List.append_assoc] using h'

theorem cons (x : Node) (h : Stands (start + 1) added P) : Stands start (x :: added) P :=
  append_left [x] h

theorem and (hP : Stands start added P) (hQ : Stands start added Q) :
    Stands start added fun g => P g ∧ Q g :=
  fun front back root hfront => ⟨hP front back root hfront, hQ front back root hfront⟩

theorem imp (hP : Stands start added P) (h : ∀ g, P g → Q g) : Stands start added Q :=
  fun front back root hfront => h _ (hP front back root hfront)

/-- The first node of the run has the number where the run starts. -/
theorem head (start : Nat) (x : Node) (added : List Node) :
    Stands start (x :: added) fun g => g.nodes[start]? = some x := by
  rintro front back root rfl
  simp

end Stands

/-! ## Adding a tree -/

theorem addItems_grown {items : List Value}
    (hitems : ∀ v ∈ items, ∀ path nodes, ∃ added,
      Grown nodes [nodes.size] (addValue path nodes v).1 added ∧
      (addValue path nodes v).2 = nodes.size ∧
      Stands nodes.size added fun g => g.Holds nodes.size v)
    (path : List Nat) (nodes : Array Node) :
    ∃ added, Grown nodes (addItems path nodes items).2 (addItems path nodes items).1 added ∧
      Stands nodes.size added
        fun g => List.Forall₂ g.Holds (addItems path nodes items).2 items := by
  induction items generalizing nodes with
  | nil =>
    simp only [addItems]
    exact ⟨[], Grown.refl nodes, fun _ _ _ _ => .nil⟩
  | cons v vs ih =>
    obtain ⟨first, hfirst, hroot, hv⟩ := hitems v List.mem_cons_self path nodes
    obtain ⟨rest, hrest, hvs⟩ := ih (fun w hw => hitems w (List.mem_cons_of_mem v hw))
      (addValue path nodes v).1
    rw [hfirst.size] at hvs
    simp only [addItems, hroot]
    refine ⟨first ++ rest, hfirst.trans hrest, ?_⟩
    exact ((hv.append_right rest).and (hvs.append_left first)).imp fun g h => .cons h.1 h.2

theorem addEntries_grown {entries : List (Scalar × Value)}
    (hentries : ∀ e ∈ entries, ∀ path nodes, ∃ added,
      Grown nodes [nodes.size] (addValue path nodes e.2).1 added ∧
      (addValue path nodes e.2).2 = nodes.size ∧
      Stands nodes.size added fun g => g.Holds nodes.size e.2)
    (path : List Nat) (nodes : Array Node) :
    ∃ added, Grown nodes (Node.dict (addEntries path nodes entries).2).parts
        (addEntries path nodes entries).1 added ∧
      Stands nodes.size added
        fun g => List.Forall₂ g.HoldsEntry (addEntries path nodes entries).2 entries := by
  induction entries generalizing nodes with
  | nil =>
    simp only [addEntries]
    exact ⟨[], Grown.refl nodes, fun _ _ _ _ => .nil⟩
  | cons e es ih =>
    obtain ⟨k, v⟩ := e
    -- the node of the key comes first, and then those of the value
    have hkey := Grown.push nodes k
    obtain ⟨first, hfirst, hroot, hv⟩ :=
      hentries (k, v) List.mem_cons_self path (nodes.push (.scalar k))
    obtain ⟨rest, hrest, hes⟩ := ih (fun e he => hentries e (List.mem_cons_of_mem _ he))
      (addValue path (nodes.push (.scalar k)) v).1
    rw [hfirst.size, Array.size_push] at hes
    simp only [addEntries, hroot, Array.size_push] at hv ⊢
    refine ⟨.scalar k :: (first ++ rest), ?_, ?_⟩
    · have h := hkey.trans (hfirst.trans hrest)
      rw [Array.size_push] at h
      exact h
    · have hhead := Stands.head nodes.size (.scalar k) (first ++ rest)
      have htree := ((hv.append_right rest).and (hes.append_left first)).cons (.scalar k)
      exact (hhead.and htree).imp fun g h => .cons ⟨h.1, h.2.1⟩ h.2.2

/-- Adding a tree appends a run of nodes that starts with its root and holds it. -/
theorem addValue_grown {P : Scalar → Prop} {K : List Scalar → Prop} {v : Value}
    (hv : v.Over P K) (path : List Nat) (nodes : Array Node) :
    ∃ added, Grown nodes [nodes.size] (addValue path nodes v).1 added ∧
      (addValue path nodes v).2 = nodes.size ∧
      Stands nodes.size added fun g => g.Holds nodes.size v := by
  induction hv generalizing path nodes with
  | @scalar s _ =>
    simp only [addValue]
    exact ⟨[.scalar s], Grown.push nodes s, trivial,
      (Stands.head nodes.size (.scalar s) []).imp fun g => holds_scalar.mpr⟩
  -- the place of a container is taken by an empty one until its parts are there
  | @array items _ ih =>
    obtain ⟨added, hgrown, hitems⟩ :=
      addItems_grown ih (nodes.size :: path) (nodes.push (.array []))
    rw [Array.size_push] at hitems
    simp only [addValue]
    refine ⟨_, hgrown.close (y := .array _), trivial, ?_⟩
    exact ((Stands.head nodes.size _ added).and (hitems.cons _)).imp fun g h =>
      holds_array.mpr ⟨_, h⟩
  | @dict entries _ _ ih =>
    obtain ⟨added, hgrown, hentries⟩ :=
      addEntries_grown ih (nodes.size :: path) (nodes.push (.dict []))
    rw [Array.size_push] at hentries
    simp only [addValue]
    refine ⟨_, hgrown.close (y := .dict _), trivial, ?_⟩
    exact ((Stands.head nodes.size _ added).and (hentries.cons _)).imp fun g h =>
      holds_dict.mpr ⟨_, h⟩

/-! ## The graph of a tree -/

/-- The root is a part of nothing, and no node is a part of anything in two places. -/
def Unshared (g : Graph) : Prop := (g.root :: g.nodes.toList.flatMap Node.parts).Nodup

section OfValue

variable {P : Scalar → Prop} {K : List Scalar → Prop} {v : Value}

theorem ofValue_eq (v : Value) : ofValue v = ⟨(addValue [] #[] v).1, (addValue [] #[] v).2⟩ := rfl

theorem holds_ofValue (hv : v.Over P K) : (ofValue v).Holds (ofValue v).root v := by
  obtain ⟨added, hgrown, hroot, hholds⟩ := addValue_grown hv [] #[]
  have h := hholds [] [] 0 rfl
  have hnodes : (addValue [] #[] v).1 = added.toArray := by
    rw [← Array.toList_inj, hgrown.toList]
    simp
  rw [ofValue_eq, hnodes, hroot]
  simpa using h

theorem unshared_ofValue (hv : v.Over P K) : (ofValue v).Unshared := by
  obtain ⟨added, hgrown, hroot, -⟩ := addValue_grown hv [] #[]
  have hparts := hgrown.parts.nodup_iff.mpr List.nodup_range'
  have hlist := hgrown.toList
  rw [Array.toList_empty, List.nil_append] at hlist
  rw [Unshared, ofValue_eq, hlist, hroot]
  exact hparts

/-- The tree of the graph of a tree is that tree. -/
theorem value_ofValue (hv : v.Over P K) : (ofValue v).value = v := (holds_ofValue hv).value_eq

end OfValue

namespace Unshared

variable {g : Graph} {i j a : Nat} {x y : Node}

theorem root_not_mem (h : g.Unshared) (hx : g.nodes[i]? = some x) : g.root ∉ x.parts := by
  intro hroot
  have hmem : x ∈ g.nodes.toList := List.mem_of_getElem? (by rw [Array.getElem?_toList]; exact hx)
  exact (List.nodup_cons.mp h).1 (List.mem_flatMap.mpr ⟨x, hmem, hroot⟩)

theorem nodup_parts (h : g.Unshared) (hx : g.nodes[i]? = some x) : x.parts.Nodup := by
  have hmem : x ∈ g.nodes.toList := List.mem_of_getElem? (by rw [Array.getElem?_toList]; exact hx)
  exact (List.nodup_flatMap.mp (List.nodup_cons.mp h).2).1 x hmem

/-- A node is a part of one node only. -/
theorem eq_of_mem_parts (h : g.Unshared) (hx : g.nodes[i]? = some x) (hy : g.nodes[j]? = some y)
    (hax : a ∈ x.parts) (hay : a ∈ y.parts) : i = j := by
  have hdisjoint := (List.nodup_flatMap.mp (List.nodup_cons.mp h).2).2
  rw [← Array.getElem?_toList] at hx hy
  obtain ⟨hi, rfl⟩ := List.getElem?_eq_some_iff.mp hx
  obtain ⟨hj, rfl⟩ := List.getElem?_eq_some_iff.mp hy
  rw [List.pairwise_iff_getElem] at hdisjoint
  by_contra hne
  rcases Nat.lt_or_gt_of_ne hne with hlt | hlt
  · exact hdisjoint i j hi hj hlt hax hay
  · exact hdisjoint j i hj hi hlt hay hax

end Unshared

end Graph

end PropertyList
