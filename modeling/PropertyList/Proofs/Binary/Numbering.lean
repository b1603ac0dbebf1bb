/-
  PropertyList.Proofs.Binary.Numbering

  What numbering does to a graph.  The list of objects only grows, each identity
  stands in it once, and when it is complete all parts of its objects are in it.
  So every node that can be reached has the number of an object that is the same
  node, or an equal scalar.
-/
import PropertyList.Binary.Writer
import PropertyList.Proofs.Graph.Holds

namespace PropertyList.Binary

/-! ## Numbers -/

namespace Numbering

/-- The identities of the objects. -/
def identities (objects : Numbering) : List Identity := objects.map fun o => o.identity

@[simp] theorem identities_nil : identities [] = [] := rfl

@[simp] theorem identities_cons (o : Numbered) (objects : Numbering) :
    identities (o :: objects) = o.identity :: identities objects := rfl

theorem number?_isSome {objects : Numbering} {id : Identity} :
    (objects.number? id).isSome = true ↔ id ∈ objects.identities := by
  induction objects with
  | nil => simp [number?]
  | cons o rest ih =>
    rw [number?, identities_cons, List.mem_cons]
    by_cases h : o.identity = id
    · simp [h]
    · rw [if_neg h, ih]
      exact ⟨.inr, fun hid => hid.resolve_left fun h' => h h'.symm⟩

theorem number?_lt {objects : Numbering} {id : Identity} {k : Nat}
    (h : objects.number? id = some k) : k < objects.length := by
  induction objects with
  | nil => simp [number?] at h
  | cons o rest ih =>
    rw [number?] at h
    rw [List.length_cons]
    split at h
    · obtain rfl := Option.some.inj h
      exact Nat.lt_succ_self _
    · exact Nat.lt_succ_of_lt (ih h)

/-- The number of an identity is the place of its object. -/
theorem exists_of_number? {objects : Numbering} {id : Identity} {k : Nat}
    (h : objects.number? id = some k) : ∃ o, objects.reverse[k]? = some o ∧ o.identity = id := by
  induction objects with
  | nil => simp [number?] at h
  | cons o rest ih =>
    rw [List.reverse_cons]
    rw [number?] at h
    split at h
    next hid =>
      obtain rfl := Option.some.inj h
      exact ⟨o, by simp, hid⟩
    next =>
      obtain ⟨p, hget, hid⟩ := ih h
      refine ⟨p, ?_, hid⟩
      rw [List.getElem?_append_left (by simpa using number?_lt h)]
      exact hget

/-- With each identity standing once, the place of an object is the number of its identity. -/
theorem number?_of_getElem? {objects : Numbering} {o : Numbered} {k : Nat}
    (hnodup : objects.identities.Nodup) (h : objects.reverse[k]? = some o) :
    objects.number? o.identity = some k := by
  induction objects with
  | nil => simp at h
  | cons p rest ih =>
    rw [identities_cons, List.nodup_cons] at hnodup
    rw [List.reverse_cons] at h
    rw [number?]
    -- the list grows at its front, so the newest object has the last number
    by_cases hk : k < rest.length
    · rw [List.getElem?_append_left (by simpa using hk)] at h
      have hmem : o ∈ rest := List.mem_reverse.mp (List.mem_of_getElem? h)
      have hne : p.identity ≠ o.identity := fun heq =>
        hnodup.1 (heq ▸ List.mem_map_of_mem hmem)
      rw [if_neg hne, ih hnodup.2 h]
    · rw [List.getElem?_append_right (by simpa using hk)] at h
      obtain ⟨hlt, rfl⟩ := List.getElem?_eq_some_iff.mp h
      have hkeq : k = rest.length := by
        rw [List.length_reverse, List.length_singleton] at hlt
        omega
      simp [hkeq]

end Numbering

/-! ## One step -/

/-- The parts of a node in the order in which they are numbered. -/
def listedParts (g : Graph) (sortKeys : Bool) : Node → Except NumberingFault (List Nat)
  | .scalar _ => .ok []
  | .array items => .ok items
  | .dict entries =>
    (orderedEntries g sortKeys entries).map fun es => es.map (·.1) ++ es.map (·.2)

/-- Numbering a node that is new means numbering its parts behind it. -/
theorem number_succ (g : Graph) (sortKeys : Bool) (budget : Nat) (objects : Numbering) (i : Nat) :
    number g sortKeys (budget + 1) objects i =
      if (objects.number? (identity g i)).isSome then .ok objects else
      (listedParts g sortKeys (g.node i)).bind fun parts =>
        parts.foldlM (number g sortKeys budget) (⟨identity g i, i⟩ :: objects) := by
  rw [number]
  split
  · rfl
  · cases g.node i with
    | scalar s => rfl
    | array items => rfl
    -- the keys are numbered in front of the values
    | dict entries =>
      simp only [listedParts]
      cases orderedEntries g sortKeys entries with
      | error f => rfl
      | ok es =>
        show _ = List.foldlM _ _ (es.map (·.1) ++ es.map (·.2))
        rw [List.foldlM_append]
        rfl

section

variable {g : Graph} {sortKeys : Bool}

/-- A list of objects of a graph, in which each identity stands once. -/
structure Numbers (g : Graph) (objects : Numbering) : Prop where
  nodup : objects.identities.Nodup
  own : ∀ o ∈ objects, o.identity = identity g o.node

/-- The parts of an object are all in the list. -/
def Complete (g : Graph) (sortKeys : Bool) (objects : Numbering) (o : Numbered) : Prop :=
  ∃ parts, listedParts g sortKeys (g.node o.node) = .ok parts ∧
    ∀ p ∈ parts, identity g p ∈ objects.identities

/-- What numbering adds: objects in front, all of them complete. -/
structure Grows (g : Graph) (sortKeys : Bool) (objects objects' : Numbering) : Prop where
  suffix : objects <:+ objects'
  numbers : Numbers g objects → Numbers g objects'
  complete : ∀ o ∈ objects', o ∈ objects ∨ Complete g sortKeys objects' o

theorem mem_identities_of_suffix {objects objects' : Numbering} {id : Identity}
    (h : objects <:+ objects') (hid : id ∈ objects.identities) : id ∈ objects'.identities :=
  List.map_subset _ h.subset hid

theorem Complete.mono {objects objects' : Numbering} {o : Numbered}
    (h : Complete g sortKeys objects o) (hsuffix : objects <:+ objects') :
    Complete g sortKeys objects' o := by
  obtain ⟨parts, hparts, hall⟩ := h
  exact ⟨parts, hparts, fun p hp => mem_identities_of_suffix hsuffix (hall p hp)⟩

namespace Grows

theorem refl (objects : Numbering) : Grows g sortKeys objects objects :=
  ⟨List.suffix_rfl, id, fun _ ho => .inl ho⟩

theorem trans {a b c : Numbering} (hab : Grows g sortKeys a b) (hbc : Grows g sortKeys b c) :
    Grows g sortKeys a c where
  suffix := hab.suffix.trans hbc.suffix
  numbers := fun h => hbc.numbers (hab.numbers h)
  complete := by
    intro o ho
    rcases hbc.complete o ho with ho | ho
    · exact (hab.complete o ho).imp_right fun h => h.mono hbc.suffix
    · exact .inr ho

end Grows

/-- Numbering a list of nodes one after the other. -/
theorem foldlM_number_grows {budget : Nat}
    (hnumber : ∀ objects i objects', number g sortKeys budget objects i = .ok objects' →
      Grows g sortKeys objects objects' ∧ identity g i ∈ objects'.identities)
    {parts : List Nat} {objects objects' : Numbering}
    (h : parts.foldlM (number g sortKeys budget) objects = .ok objects') :
    Grows g sortKeys objects objects' ∧ ∀ p ∈ parts, identity g p ∈ objects'.identities := by
  induction parts generalizing objects with
  | nil =>
    obtain rfl := Except.ok.inj h
    exact ⟨.refl _, by simp⟩
  | cons p ps ih =>
    rw [List.foldlM_cons] at h
    obtain ⟨next, hp, h⟩ := exists_of_bind_eq_ok h
    obtain ⟨hfirst, hmem⟩ := hnumber objects p next hp
    obtain ⟨hrest, hall⟩ := @ih next h
    refine ⟨hfirst.trans hrest, ?_⟩
    intro q hq
    rcases List.mem_cons.mp hq with rfl | hq
    · exact mem_identities_of_suffix hrest.suffix hmem
    · exact hall q hq

/-- A new object in front of a list. -/
theorem Numbers.cons {objects : Numbering} {i : Nat} (h : Numbers g objects)
    (hnew : identity g i ∉ objects.identities) : Numbers g (⟨identity g i, i⟩ :: objects) where
  nodup := List.nodup_cons.mpr ⟨hnew, h.nodup⟩
  own := by
    intro o ho
    rcases List.mem_cons.mp ho with rfl | ho
    · rfl
    · exact h.own o ho

/-- Numbering a node puts it on the list, with all that can be reached from it. -/
theorem number_grows {budget i : Nat} {objects objects' : Numbering}
    (h : number g sortKeys budget objects i = .ok objects') :
    Grows g sortKeys objects objects' ∧ identity g i ∈ objects'.identities := by
  induction budget generalizing objects i objects' with
  | zero => cases h
  | succ budget ih =>
    rw [number_succ] at h
    -- a node that has a number is left as it is
    by_cases hseen : (objects.number? (identity g i)).isSome = true
    · rw [if_pos hseen] at h
      obtain rfl := Except.ok.inj h
      exact ⟨.refl _, Numbering.number?_isSome.mp hseen⟩
    rw [if_neg hseen] at h
    obtain ⟨parts, hparts, h⟩ := exists_of_bind_eq_ok h
    obtain ⟨hgrows, hall⟩ := foldlM_number_grows (fun _ _ _ => ih) h
    have hsuffix := (List.suffix_cons (⟨identity g i, i⟩ : Numbered) objects).trans hgrows.suffix
    refine ⟨⟨hsuffix, fun hnumbers => ?_, fun o ho => ?_⟩, ?_⟩
    · exact hgrows.numbers (hnumbers.cons fun hmem => hseen (Numbering.number?_isSome.mpr hmem))
    -- a new object is complete as soon as its parts have been numbered behind it
    · rcases hgrows.complete o ho with ho | ho
      · rcases List.mem_cons.mp ho with rfl | ho
        · exact .inr ⟨parts, hparts, hall⟩
        · exact .inl ho
      · exact .inr ho
    · exact mem_identities_of_suffix hgrows.suffix List.mem_cons_self

/-! ## The complete list -/

/-- The list of all objects that can be reached from the root. -/
structure AllNumbers (g : Graph) (sortKeys : Bool) (objects : Numbering) : Prop
    extends Numbers g objects where
  complete : ∀ o ∈ objects, Complete g sortKeys objects o
  root : objects.number? (identity g g.root) = some 0

theorem numberAll_all {objects : Numbering} (h : numberAll g sortKeys = .ok objects) :
    AllNumbers g sortKeys objects := by
  obtain ⟨hgrows, hroot⟩ := number_grows h
  have hnumbers : Numbers g objects := hgrows.numbers ⟨List.nodup_nil, by simp⟩
  refine ⟨hnumbers, fun o ho => ?_, ?_⟩
  · exact (hgrows.complete o ho).resolve_left (List.not_mem_nil)
  -- the root is put on the empty list, so it stands at the end
  · rw [numberAll, numberingBudget, number_succ, if_neg (by simp [Numbering.number?])] at h
    obtain ⟨parts, -, h⟩ := exists_of_bind_eq_ok h
    obtain ⟨hgrows, -⟩ := foldlM_number_grows (fun _ _ _ => number_grows) h
    obtain ⟨front, hfront⟩ := hgrows.suffix
    have hfirst : objects.reverse[0]? = some ⟨identity g g.root, g.root⟩ := by
      rw [← hfront]
      simp
    exact Numbering.number?_of_getElem? hnumbers.nodup hfirst

end

end PropertyList.Binary
