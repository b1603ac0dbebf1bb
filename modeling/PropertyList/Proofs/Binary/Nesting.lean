/-
  PropertyList.Proofs.Binary.Nesting

  When a binary list nests too deeply.  In a well-formed image, with all its cycles
  and shared containers, this is the only fault that reading can meet, but for objects
  without a record.  In any list it takes a chain of containers that have not been read
  yet, each a part of the one before it and all of them different; where the list holds
  a tree, the tree is as deep as the chain is long.
-/
import PropertyList.Proofs.Binary.Acceptance
import PropertyList.Proofs.Graph.Reach

namespace PropertyList.Binary

/-! ## Results but for some faults -/

/-- A result with a property, the fault of nesting too deeply, or, where there is cause for it, that
    of being malformed. -/
inductive Ends {α : Type} (M : Prop) (P : α → Prop) : Except ReadFault α → Prop where
  | tooDeep : Ends M P (.error .tooDeep)
  | malformed (h : M) : Ends M P (.error .malformed)
  | ok {a : α} (h : P a) : Ends M P (.ok a)

namespace Ends

variable {α β σ : Type} {M : Prop} {P Q : α → Prop} {R : β → Prop} {x : Except ReadFault α}

theorem imp {N : Prop} (h : Ends M P x) (hMN : M → N) (hPQ : ∀ a, P a → Q a) : Ends N Q x := by
  cases h with
  | tooDeep => exact .tooDeep
  | malformed hM => exact .malformed (hMN hM)
  | ok ha => exact .ok (hPQ _ ha)

theorem bind {f : α → Except ReadFault β} (h : Ends M P x) (hf : ∀ a, P a → Ends M R (f a)) :
    Ends M R (x >>= f) := by
  cases h with
  | tooDeep => exact .tooDeep
  | malformed hM => exact .malformed hM
  | ok ha => exact hf _ ha

theorem map {f : α → β} (h : Ends M P x) (hf : ∀ a, P a → R (f a)) : Ends M R (x.map f) := by
  cases h with
  | tooDeep => exact .tooDeep
  | malformed hM => exact .malformed hM
  | ok ha => exact .ok (hf _ ha)

theorem exists_ok (h : Ends M P x) (hM : ¬ M) (hx : x ≠ .error .tooDeep) : ∃ a, x = .ok a ∧ P a := by
  cases h with
  | tooDeep => exact absurd rfl hx
  | malformed h => exact absurd h hM
  | ok ha => exact ⟨_, rfl, ha⟩

/-- Going through a list, where the invariant says what has been done. -/
theorem foldlM {step : σ → α → Except ReadFault σ} {I : List α → σ → Prop} {all : List α}
    (hstep : ∀ done a rest s, all = done ++ a :: rest → I done s →
      Ends M (I (done ++ [a])) (step s a))
    {done rest : List α} {s : σ} (hall : all = done ++ rest) (h : I done s) :
    Ends M (I all) (rest.foldlM step s) := by
  induction rest generalizing done s with
  | nil =>
    rw [hall, List.append_nil]
    exact .ok h
  | cons a rest ih =>
    rw [List.foldlM_cons]
    refine (hstep done a rest s hall h).bind ?_
    intro s' hs'
    refine ih ?_ hs'
    rw [hall, List.append_assoc]
    rfl

end Ends

/-! ## Reading a well-formed image -/

section Image

variable {src : Source} {img : Graph} {opened : List Nat} {budget ref : Nat} {nodes : Nodes}

/-- The objects of a binary list are the nodes of a graph, as far as they have a record. -/
def Follows (src : Source) (img : Graph) : Prop :=
  ∀ (i : Nat) (x : Node) (r : Record), img.nodes[i]? = some x → src.record? i = some r → r.node = x

/-- Some node of a graph has no record. -/
def Lacks (src : Source) (img : Graph) : Prop :=
  ∃ i x, img.nodes[i]? = some x ∧ src.record? i = none

/-- An image all of whose objects can be read on a given budget, in every state, unless they nest
    too deeply or some object has no record. -/
def EndsEach (src : Source) (img : Graph) (budget : Nat) : Prop :=
  ∀ opened nodes ref, OpenContainers img opened → Faithful img opened nodes →
    ref < img.nodes.size →
    Ends (Lacks src img) (fun nodes' => Faithful img opened nodes' ∧ Reads src [ref] nodes nodes')
      (readObject src budget nodes ref)

/-- The items of an array. -/
theorem EndsEach.items (hends : EndsEach src img budget) (hopened : OpenContainers img opened)
    (h : Faithful img opened nodes) {items : List Nat} (hitems : ∀ i ∈ items, i < img.nodes.size) :
    Ends (Lacks src img) (fun nodes' => Faithful img opened nodes' ∧ ∀ i ∈ items, nodes'.Filled i)
      (items.foldlM (readObject src budget) nodes) := by
  refine Ends.foldlM
    (I := fun done nodes => Faithful img opened nodes ∧ ∀ i ∈ done, nodes.Filled i) ?_
    (List.nil_append items).symm ⟨h, List.forall_mem_nil _⟩
  rintro done i rest nodes hall ⟨h, hdone⟩
  have hlt : i < img.nodes.size := hitems i (by rw [hall]; simp)
  refine (hends opened nodes i hopened h hlt).imp id ?_
  rintro nodes' ⟨h', hreads⟩
  refine ⟨h', ?_⟩
  intro j hj
  rcases List.mem_append.mp hj with hj | hj
  · exact hreads.keeps.filled (hdone j hj)
  · exact hreads.filled j hj

/-- Two keys of an image that have been read are told apart as they are there. -/
theorem sameKey_of_faithful (hopened : OpenContainers img opened) (h : Faithful img opened nodes)
    {i j : Nat} {s t : Scalar} (hs : img.nodes[i]? = some (.scalar s))
    (ht : img.nodes[j]? = some (.scalar t)) (hi : nodes.Filled i) (hj : nodes.Filled j) :
    nodes.sameKey i j = img.sameKey i j := by
  rw [sameKey_of_scalar? (scalar?_of_filled h hopened hs hi) (scalar?_of_filled h hopened ht hj)]
  rw [Graph.sameKey, Graph.scalarAt_eq_of_getElem? hs, Graph.scalarAt_eq_of_getElem? ht]

/-- The entries of a dictionary: they come out as they are in the image. -/
theorem EndsEach.entries (hends : EndsEach src img budget) (himg : img.WellFormed)
    (hopened : OpenContainers img opened) (h : Faithful img opened nodes)
    {entries : List (Nat × Nat)} (hget : img.nodes[ref]? = some (.dict entries)) :
    Ends (Lacks src img) (fun state : Nodes × List (Nat × Nat) => Faithful img opened state.1 ∧
        state.2 = entries ∧ ∀ e ∈ entries, state.1.Filled e.1 ∧ state.1.Filled e.2)
      (entries.foldlM (readEntry src budget) (nodes, [])) := by
  have hparts : ∀ e ∈ entries, e.1 < img.nodes.size ∧ e.2 < img.nodes.size :=
    Node.forall_parts_dict.mp (himg.parts ref _ hget)
  refine Ends.foldlM (I := fun done (state : Nodes × List (Nat × Nat)) =>
    Faithful img opened state.1 ∧ state.2 = done ∧
      ∀ e ∈ done, state.1.Filled e.1 ∧ state.1.Filled e.2) ?_
    (List.nil_append entries).symm ⟨h, rfl, List.forall_mem_nil _⟩
  rintro done e rest ⟨nodes, done'⟩ hall ⟨h, heq, hdone⟩
  obtain rfl : done' = done := heq
  have he : e ∈ entries := by
    rw [hall]
    exact List.mem_append_right _ List.mem_cons_self
  rw [readEntry]
  -- first the value, then the key
  refine (hends opened nodes e.2 hopened h (hparts e he).2).bind ?_
  rintro mid ⟨hmid, hvalue⟩
  refine (hends opened mid e.1 hopened hmid (hparts e he).1).bind ?_
  rintro last ⟨hlast, hkey⟩
  have hfilled : last.Filled e.1 := hkey.filled _ List.mem_cons_self
  have hfilled' : last.Filled e.2 := hkey.keeps.filled (hvalue.filled _ List.mem_cons_self)
  have hkeeps := hvalue.keeps.trans hkey.keeps
  obtain ⟨s, hs⟩ := himg.key ref entries hget e he
  rw [if_pos (by rw [scalar?_of_filled hlast hopened hs hfilled]; rfl)]
  -- no key before this one names the same entry
  have hfresh : ∀ f ∈ done', last.sameKey f.1 e.1 = false := by
    intro f hf
    have hmem : f ∈ entries := by
      rw [hall]
      exact List.mem_append_left _ hf
    obtain ⟨t, ht⟩ := himg.key ref entries hget f hmem
    rw [sameKey_of_faithful hopened hlast ht hs (hkeeps.filled (hdone f hf).1) hfilled]
    have hapart := himg.apart ref entries hget
    rw [hall, List.pairwise_append] at hapart
    exact hapart.2.2 f hf e List.mem_cons_self
  rw [setEntry_of_forall_not hfresh]
  refine .ok ⟨hlast, rfl, ?_⟩
  intro f hf
  rcases List.mem_append.mp hf with hf | hf
  · exact ⟨hkeeps.filled (hdone f hf).1, hkeeps.filled (hdone f hf).2⟩
  · rw [List.mem_singleton.mp hf]
    exact ⟨hfilled, hfilled'⟩

/-- Reading an object of a well-formed image. -/
theorem endsEach (hsrc : Follows src img) (himg : img.WellFormed) (budget : Nat) :
    EndsEach src img budget := by
  induction budget using Nat.strongRecOn with
  | ind budget ih =>
    intro opened nodes ref hopened h href
    -- what a successful reading fills is known for every image
    suffices hends : Ends (Lacks src img) (Faithful img opened) (readObject src budget nodes ref) by
      generalize hread : readObject src budget nodes ref = result at hends
      cases hends with
      | tooDeep => exact .tooDeep
      | malformed hlacks => exact .malformed hlacks
      | ok hlast => exact .ok ⟨hlast, reads_of_ok hread⟩
    obtain ⟨x, hx⟩ : ∃ x, img.nodes[ref]? = some x := ⟨_, Array.getElem?_eq_getElem href⟩
    cases budget with
    | zero => exact .tooDeep
    | succ budget =>
      -- what has been read is not read again
      rcases h.filled_or hx with ⟨y, hy⟩ | hfree
      · rw [readObject_filled hy]
        exact .ok h
      cases hrecord : src.record? ref with
      | none =>
        rw [readObject_lacking hfree hrecord]
        exact .malformed ⟨ref, x, hx, hrecord⟩
      | some r =>
      obtain rfl := hsrc ref x r hx hrecord
      cases r with
      | scalar s =>
        rw [readObject_scalar hfree hrecord]
        exact .ok (h.setScalar hx hfree)
      | array items =>
        have hopened' : OpenContainers img (ref :: opened) :=
          hopened.cons fun s => by simp [hx, Record.node]
        -- an empty array is read even where there is no budget for items
        by_cases hlow : budget < 2
        · rw [readObject_array_low hfree hrecord hlow]
          split
          · next hempty =>
            obtain rfl := List.isEmpty_iff.mp hempty
            have hleft := (h.enter hfree (.array [])).leave hx (List.forall_mem_nil _)
            rw [Array.setIfInBounds_setIfInBounds] at hleft
            exact .ok hleft
          · exact .tooDeep
        · obtain ⟨inner, rfl⟩ : ∃ inner, budget = inner + 2 := ⟨budget - 2, by omega⟩
          rw [readObject_array hfree hrecord]
          refine ((ih inner (by omega)).items hopened' (h.enter hfree _)
            (himg.parts ref _ hx)).map ?_
          rintro last ⟨hlast, hall⟩
          exact hlast.leave hx hall
      | dict keys values =>
        have hopened' : OpenContainers img (ref :: opened) :=
          hopened.cons fun s => by simp [hx, Record.node]
        rw [readObject_dict hfree hrecord]
        refine ((ih budget (by omega)).entries himg hopened' (h.enter hfree _) hx).map ?_
        rintro ⟨last, _⟩ ⟨hlast, rfl, hall⟩
        exact hlast.leave hx (Node.forall_parts_dict.mpr hall)

end Image

/-! ## Containers in each other -/

/-- Containers that stand in each other, from an object on: each has the next one as a part, and
    the last one has parts, too. -/
inductive Source.Chain (src : Source) : Nat → List Nat → Prop where
  | nil (ref : Nat) : Chain src ref []
  | cons {ref p : Nat} {r : Record} {path : List Nat} (hrecord : src.record? ref = some r)
      (hp : p ∈ r.node.parts) (h : Chain src p path) : Chain src ref (ref :: path)

section Chain

variable {src : Source} {budget ref : Nat} {nodes : Nodes} {path : List Nat}

/-- A chain of different containers that have not been read and use up a budget. -/
structure Exhausts (src : Source) (budget : Nat) (nodes : Nodes) (ref : Nat) (path : List Nat) :
    Prop where
  chain : src.Chain ref path
  nodup : path.Nodup
  unread : ∀ i ∈ path, nodes[i]? = some none
  length : budget ≤ 3 * path.length

/-- What has not been read had not been read before, either. -/
theorem Keeps.unread {nodes' : Nodes} {i : Nat} (h : Keeps nodes nodes')
    (hi : nodes'[i]? = some none) : nodes[i]? = some none := by
  have hlt : i < nodes.size := by
    rw [← h.size]
    exact (Array.getElem?_eq_some_iff.mp hi).1
  cases hstate : nodes[i] with
  | none => rw [Array.getElem?_eq_getElem hlt, hstate]
  | some x =>
    have hkept := h.get i x (by rw [Array.getElem?_eq_getElem hlt, hstate])
    cases hi.symm.trans hkept

/-- A container that is entered stands in front of a chain from one of its parts. -/
theorem Exhausts.cons {inner p : Nat} {r : Record} {last : Nodes} (h : Exhausts src inner last p path)
    (hfree : nodes[ref]? = some none) (hrecord : src.record? ref = some r)
    (hp : p ∈ r.node.parts) {x : Node} (hkeeps : Keeps (nodes.setIfInBounds ref (some x)) last)
    (hbudget : budget ≤ inner + 3) : Exhausts src budget nodes ref (ref :: path) := by
  have hlt := (Array.getElem?_eq_some_iff.mp hfree).1
  have hentered : last[ref]? = some (some x) :=
    hkeeps.get ref x (Array.getElem?_setIfInBounds_self_of_lt hlt)
  refine ⟨.cons hrecord hp h.chain, List.nodup_cons.mpr ⟨?_, h.nodup⟩, ?_, ?_⟩
  · intro hmem
    cases hentered.symm.trans (h.unread ref hmem)
  · intro i hi
    rcases List.mem_cons.mp hi with rfl | hi
    · exact hfree
    · exact (((Keeps.refl nodes).set hfree _).trans hkeeps).unread (h.unread i hi)
  · have hlength := h.length
    rw [List.length_cons]
    omega

/-- The budget is only used up by a chain of containers, whatever is read on it. -/
def ExhaustsEach (src : Source) (budget : Nat) : Prop :=
  ∀ nodes ref, readObject src budget nodes ref = .error .tooDeep →
    ∃ path, Exhausts src budget nodes ref path

/-- An array nests too deeply if an item does, or if there is no budget for its first item. -/
theorem exists_exhausts_of_array (hread : ∀ inner < budget + 1, ExhaustsEach src inner)
    {items : List Nat} (hfree : nodes[ref]? = some none)
    (hrecord : src.record? ref = some (.array items))
    (h : readObject src (budget + 1) nodes ref = .error .tooDeep) :
    ∃ path, Exhausts src (budget + 1) nodes ref path := by
  -- without budget for items, the first item alone is one too many
  by_cases hlow : budget < 2
  · rw [readObject_array_low hfree hrecord hlow] at h
    split at h
    · cases h
    · next hempty =>
      obtain ⟨i, items, rfl⟩ := List.exists_cons_of_ne_nil
        (fun hnil => hempty (List.isEmpty_iff.mpr hnil))
      have hnil : Exhausts src 0 (nodes.setIfInBounds ref (some (.array []))) i [] :=
        ⟨.nil i, .nil, List.forall_mem_nil _, Nat.le_refl _⟩
      exact ⟨_, hnil.cons hfree hrecord List.mem_cons_self (.refl _) (by omega)⟩
  · obtain ⟨inner, rfl⟩ : ∃ inner, budget = inner + 2 := ⟨budget - 2, by omega⟩
    rw [readObject_array hfree hrecord] at h
    -- some item is the first to nest too deeply
    obtain ⟨done, i, rest, last, rfl, hdone, hi⟩ :=
      exists_of_foldlM_eq_error (eq_error_of_map h)
    obtain ⟨path, hpath⟩ := hread inner (by omega) _ _ hi
    have hreads := reads_foldlM (fun _ _ _ => reads_of_ok) hdone
    exact ⟨_, hpath.cons hfree hrecord (List.mem_append_right done List.mem_cons_self) hreads.keeps
      (Nat.le_refl _)⟩

/-- A dictionary nests too deeply if the key or the value of an entry does. -/
theorem exists_exhausts_of_dict (hread : ExhaustsEach src budget) {keys values : List Nat}
    (hfree : nodes[ref]? = some none) (hrecord : src.record? ref = some (.dict keys values))
    (h : readObject src (budget + 1) nodes ref = .error .tooDeep) :
    ∃ path, Exhausts src (budget + 1) nodes ref path := by
  rw [readObject_dict hfree hrecord] at h
  obtain ⟨done, e, rest, ⟨last, entries⟩, hall, hdone, he⟩ :=
    exists_of_foldlM_eq_error (eq_error_of_map h)
  have hreads := (reads_foldlM_readEntry (fun _ _ _ => reads_of_ok) hdone).1
  have he' : e ∈ keys.zip values := by
    rw [hall]
    exact List.mem_append_right done List.mem_cons_self
  obtain ⟨hkeyPart, hvaluePart⟩ :=
    Node.forall_parts_dict.mp (fun p (hp : p ∈ (Record.dict keys values).node.parts) => hp) e he'
  -- the value is read first, and then the key
  rcases error_cases_of_bind he with hvalue | ⟨mid, hmid, he⟩
  · obtain ⟨path, hpath⟩ := hread _ _ hvalue
    exact ⟨_, hpath.cons hfree hrecord hvaluePart hreads.keeps (by omega)⟩
  · rcases error_cases_of_bind he with hkey | ⟨mid', -, he⟩
    · obtain ⟨path, hpath⟩ := hread _ _ hkey
      have hkeeps := hreads.keeps.trans (reads_of_ok hmid).keeps
      exact ⟨_, hpath.cons hfree hrecord hkeyPart hkeeps (by omega)⟩
    · split at he <;> cases he

theorem exhaustsEach (src : Source) (budget : Nat) : ExhaustsEach src budget := by
  induction budget using Nat.strongRecOn with
  | ind budget ih =>
    intro nodes ref h
    cases budget with
    | zero => exact ⟨[], .nil ref, .nil, List.forall_mem_nil _, Nat.zero_le _⟩
    | succ budget =>
      -- only an object that has not been read yet, and is a container, can nest
      cases hstate : nodes[ref]? with
      | none =>
        rw [readObject, hstate] at h
        cases h
      | some state =>
        cases state with
        | some x =>
          rw [readObject_filled hstate] at h
          cases h
        | none =>
          cases hrecord : src.record? ref with
          | none =>
            rw [readObject_lacking hstate hrecord] at h
            cases h
          | some r =>
            cases r with
            | scalar s =>
              rw [readObject_scalar hstate hrecord] at h
              cases h
            | array items => exact exists_exhausts_of_array ih hstate hrecord h
            | dict keys values =>
              exact exists_exhausts_of_dict (ih budget (Nat.lt_succ_self budget)) hstate hrecord h

/-- In an image that holds a tree, a chain goes down into the tree. -/
theorem Source.Chain.length_le {img : Graph} {v : Value} (h : src.Chain ref path)
    (hsrc : Follows src img) (hv : img.Holds ref v) : path.length ≤ v.depth := by
  induction h generalizing v with
  | nil => exact Nat.zero_le _
  | @cons ref p r path hrecord hp _ ih =>
    have hget := Array.getElem?_eq_getElem hv.lt_size
    rw [hsrc ref _ r hget hrecord, ← Graph.node_eq_of_getElem? hget] at hp
    obtain ⟨w, hw, hpart⟩ := hv.exists_part hp
    have hlength := ih hw
    have hdepth := hpart.depth_lt
    rw [List.length_cons]
    omega

end Chain

/-- The objects of a list, and the number of the root. -/
def sourceOf? (bytes : List UInt8) : Option (Source × Nat) :=
  let trailer := Trailer.decode (bytes.drop (bytes.length - 32))
  if bytes.length < 32 then none else
  (Record.takeNumbers? trailer.offsetSize trailer.objectCount
    (bytes.drop trailer.tableOffset)).map fun found =>
      (⟨bytes, trailer.refSize, found.1.toArray⟩, trailer.root)

/-- At least `n` different containers stand in each other, from the root of a list on. -/
def Nests (n : Nat) (bytes : List UInt8) : Prop :=
  ∃ src root path, sourceOf? bytes = some (src, root) ∧ src.Chain root path ∧ path.Nodup ∧
    n ≤ path.length

/-- A list is only too deep if more than three hundred different containers stand in each other. -/
theorem nests_of_read {bytes : List UInt8} (h : read bytes = .error .tooDeep) : Nests 320 bytes := by
  unfold read at h
  dsimp only at h
  split at h
  · cases h
  next hlength =>
  split at h
  · cases h
  next offsets rest hnumbers =>
  rcases error_cases_of_bind h with hread | ⟨nodes, -, h⟩
  · obtain ⟨path, hpath⟩ := exhaustsEach _ _ _ _ hread
    refine ⟨_, _, path, ?_, hpath.chain, hpath.nodup, ?_⟩
    · rw [sourceOf?]
      simp only [if_neg hlength, hnumbers, Option.map_some]
    -- an object uses up three units at most
    · have hbudget := hpath.length
      rw [readBudget] at hbudget
      omega
  · cases h

end PropertyList.Binary
