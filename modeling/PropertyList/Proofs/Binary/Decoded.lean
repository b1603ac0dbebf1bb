/-
  PropertyList.Proofs.Binary.Decoded

  What the table of objects holds after reading.  Containers are entered half built,
  but a run that ends well leaves none of them: every node that it has added is
  `Decoded`, that is, what the record of its object says.  What is added later does
  not change this, since keys are scalars and scalars stay what they are.
-/
import PropertyList.Proofs.Binary.Acceptance

namespace PropertyList.Binary

/-! ## What stays -/

/-- What has been read stays read, and scalars stay what they are; containers may change. -/
structure Preserves (nodes nodes' : Nodes) : Prop where
  filled : ∀ i : Nat, nodes.Filled i → nodes'.Filled i
  scalars : KeepsScalars nodes nodes'

section Keys

variable {nodes nodes' : Nodes} {entries pairs : List (Nat × Nat)} {key value : Nat}

theorem Keeps.preserves (h : Keeps nodes nodes') : Preserves nodes nodes' :=
  ⟨fun _ hi => h.filled hi, h.scalars⟩

theorem preserves_set {i : Nat} (hi : nodes.scalar? i = none) (x : Node) :
    Preserves nodes (nodes.setIfInBounds i (some x)) :=
  ⟨fun _ hp => filled_set x hp, keepsScalars_set hi x⟩

theorem isSome_scalar?_mono (h : KeepsScalars nodes nodes') {k : Nat}
    (hk : (nodes.scalar? k).isSome = true) : (nodes'.scalar? k).isSome = true := by
  obtain ⟨s, hs⟩ := Option.isSome_iff_exists.mp hk
  rw [h k s hs]
  rfl

theorem sameKey_mono (h : KeepsScalars nodes nodes') {i j : Nat}
    (hi : (nodes.scalar? i).isSome = true) (hj : (nodes.scalar? j).isSome = true) :
    nodes'.sameKey i j = nodes.sameKey i j := by
  obtain ⟨a, ha⟩ := Option.isSome_iff_exists.mp hi
  obtain ⟨b, hb⟩ := Option.isSome_iff_exists.mp hj
  rw [sameKey_of_scalar? ha hb, sameKey_of_scalar? (h i a ha) (h j b hb)]

theorem setEntry_mono (h : KeepsScalars nodes nodes')
    (hentries : ∀ e ∈ entries, (nodes.scalar? e.1).isSome = true)
    (hkey : (nodes.scalar? key).isSome = true) :
    nodes'.setEntry entries key value = nodes.setEntry entries key value := by
  induction entries with
  | nil => rfl
  | cons e entries ih =>
    obtain ⟨k, v⟩ := e
    rw [Nodes.setEntry, Nodes.setEntry, sameKey_mono h (hentries (k, v) List.mem_cons_self) hkey,
      ih fun f hf => hentries f (List.mem_cons_of_mem _ hf)]

/-- The keys of entries are scalars, and remain so when an entry is set. -/
theorem isSome_scalar?_of_mem_setEntry
    (hentries : ∀ e ∈ entries, (nodes.scalar? e.1).isSome = true)
    (hkey : (nodes.scalar? key).isSome = true) :
    ∀ e ∈ nodes.setEntry entries key value, (nodes.scalar? e.1).isSome = true := by
  intro e he
  rcases (mem_setEntry he).1 with heq | ⟨f, hf, heq⟩
  · rw [heq]
    exact hkey
  · rw [heq]
    exact hentries f hf

/-- Sets entries one after the other. -/
def Nodes.setEntries (nodes : Nodes) (entries pairs : List (Nat × Nat)) : List (Nat × Nat) :=
  pairs.foldl (fun entries p => nodes.setEntry entries p.1 p.2) entries

theorem setEntries_mono (h : KeepsScalars nodes nodes')
    (hentries : ∀ e ∈ entries, (nodes.scalar? e.1).isSome = true)
    (hpairs : ∀ p ∈ pairs, (nodes.scalar? p.1).isSome = true) :
    nodes'.setEntries entries pairs = nodes.setEntries entries pairs := by
  induction pairs generalizing entries with
  | nil => rfl
  | cons p pairs ih =>
    have hkey := hpairs p List.mem_cons_self
    rw [Nodes.setEntries, List.foldl_cons, setEntry_mono h hentries hkey]
    exact ih (isSome_scalar?_of_mem_setEntry hentries hkey)
      fun q hq => hpairs q (List.mem_cons_of_mem _ hq)

end Keys

/-! ## Decoded nodes -/

/-- A node is what the record of an object says, and the parts that the record names have been
    read.  Of the values that were set under one key the last one is left. -/
inductive Decoded (src : Source) (nodes : Nodes) (ref : Nat) : Node → Prop where
  | scalar {s : Scalar} (hrecord : src.record? ref = some (.scalar s)) :
      Decoded src nodes ref (.scalar s)
  | array {items : List Nat} (hrecord : src.record? ref = some (.array items))
      (hitems : ∀ i ∈ items, nodes.Filled i) : Decoded src nodes ref (.array items)
  | dict {keys values : List Nat} (hrecord : src.record? ref = some (.dict keys values))
      (hkeys : ∀ p ∈ keys.zip values, (nodes.scalar? p.1).isSome = true)
      (hvalues : ∀ p ∈ keys.zip values, nodes.Filled p.2) :
      Decoded src nodes ref (.dict (nodes.setEntries [] (keys.zip values)))

/-- Every node that is new in the second table is decoded. -/
def AddsDecoded (src : Source) (nodes nodes' : Nodes) : Prop :=
  ∀ (i : Nat) (x : Node), nodes[i]? = some none → nodes'[i]? = some (some x) →
    Decoded src nodes' i x

section

variable {src : Source} {budget ref : Nat} {nodes nodes' nodes'' : Nodes}

theorem Decoded.mono {x : Node} (h : Decoded src nodes ref x) (hpres : Preserves nodes nodes') :
    Decoded src nodes' ref x := by
  cases h with
  | scalar hrecord => exact .scalar hrecord
  | array hrecord hitems => exact .array hrecord fun i hi => hpres.filled i (hitems i hi)
  | dict hrecord hkeys hvalues =>
    rw [← setEntries_mono hpres.scalars (List.forall_mem_nil _) hkeys]
    exact .dict hrecord (fun p hp => isSome_scalar?_mono hpres.scalars (hkeys p hp))
      fun p hp => hpres.filled _ (hvalues p hp)

theorem AddsDecoded.refl (src : Source) (nodes : Nodes) : AddsDecoded src nodes nodes := by
  intro i x hnone hx
  cases hnone.symm.trans hx

theorem AddsDecoded.trans (h : AddsDecoded src nodes nodes') (hkeeps : Keeps nodes nodes')
    (h' : AddsDecoded src nodes' nodes'') (hkeeps' : Keeps nodes' nodes'') :
    AddsDecoded src nodes nodes'' := by
  intro i x hnone hx
  -- a new node was added by the first run or by the second
  have hlt : i < nodes'.size := by
    rw [hkeeps.size]
    exact (Array.getElem?_eq_some_iff.mp hnone).1
  cases hmid : nodes'[i]? with
  | none => exact absurd hlt (not_lt.mpr (Array.getElem?_eq_none_iff.mp hmid))
  | some state =>
    cases state with
    | none => exact h' i x hmid hx
    | some y =>
      obtain rfl := Option.some.inj (Option.some.inj ((hkeeps'.get i y hmid).symm.trans hx))
      exact (h i y hnone hmid).mono hkeeps'.preserves

/-- A node is set where there was none, or where the half-built container stood that had been
    entered there. -/
theorem AddsDecoded.set {x : Node} {entered last : Nodes}
    (h : AddsDecoded src entered last) (hentered : ∀ i ≠ ref, entered[i]? = nodes[i]?)
    (hlast : last.scalar? ref = none) (hx : Decoded src last ref x) :
    AddsDecoded src nodes (last.setIfInBounds ref (some x)) := by
  intro i y hnone hy
  refine Decoded.mono ?_ (preserves_set hlast x)
  by_cases hi : ref = i
  · subst hi
    rw [Array.getElem?_setIfInBounds_self] at hy
    split at hy
    · obtain rfl := Option.some.inj (Option.some.inj hy)
      exact hx
    · cases hy
  · rw [Array.getElem?_setIfInBounds_ne hi] at hy
    exact h i y ((hentered i (Ne.symm hi)).trans hnone) hy

/-- A container that was entered half built is no scalar, whatever has been read since. -/
theorem scalar?_of_entered {x₀ : Node} {last : Nodes} (hfree : nodes[ref]? = some none)
    (hkeeps : Keeps (nodes.setIfInBounds ref (some x₀)) last) (hnot : ∀ s, x₀ ≠ .scalar s) :
    last.scalar? ref = none := by
  have hlt : ref < nodes.size := (Array.getElem?_eq_some_iff.mp hfree).1
  have hthere := hkeeps.get ref x₀ (Array.getElem?_setIfInBounds_self_of_lt hlt)
  rw [Nodes.scalar?, hthere]
  cases x₀ with
  | scalar s => exact absurd rfl (hnot s)
  | array items => rfl
  | dict entries => rfl

/-- All runs on a given budget add decoded nodes only. -/
def AddsDecodedEach (src : Source) (budget : Nat) : Prop :=
  ∀ nodes ref nodes', readObject src budget nodes ref = .ok nodes' → AddsDecoded src nodes nodes'

theorem addsDecoded_foldlM (hread : AddsDecodedEach src budget) {items : List Nat}
    (h : items.foldlM (readObject src budget) nodes = .ok nodes') :
    AddsDecoded src nodes nodes' := by
  induction items generalizing nodes with
  | nil =>
    obtain rfl := Except.ok.inj h
    exact .refl src nodes
  | cons i items ih =>
    rw [List.foldlM_cons] at h
    obtain ⟨next, hnext, hrest⟩ := exists_of_bind_eq_ok h
    exact (hread _ _ _ hnext).trans (reads_of_ok hnext).keeps (ih hrest)
      (reads_foldlM (fun _ _ _ => reads_of_ok) hrest).keeps

/-- What reading the entries of a dictionary gives: entries that are set one after the other,
    with keys that are scalars. -/
structure EntriesDecoded (src : Source) (nodes : Nodes) (entries pairs : List (Nat × Nat))
    (state : Nodes × List (Nat × Nat)) : Prop where
  adds : AddsDecoded src nodes state.1
  keys : ∀ p ∈ pairs, (state.1.scalar? p.1).isSome = true
  values : ∀ p ∈ pairs, state.1.Filled p.2
  entries : state.2 = state.1.setEntries entries pairs

theorem entriesDecoded_foldlM (hread : AddsDecodedEach src budget)
    {pairs entries : List (Nat × Nat)} {state : Nodes × List (Nat × Nat)}
    (h : pairs.foldlM (readEntry src budget) (nodes, entries) = .ok state)
    (hentries : ∀ e ∈ entries, (nodes.scalar? e.1).isSome = true) :
    EntriesDecoded src nodes entries pairs state := by
  induction pairs generalizing nodes entries with
  | nil =>
    obtain rfl := Except.ok.inj h
    exact ⟨.refl src nodes, List.forall_mem_nil _, List.forall_mem_nil _, rfl⟩
  | cons p pairs ih =>
    rw [List.foldlM_cons] at h
    obtain ⟨⟨next, entries'⟩, hnext, hrest⟩ := exists_of_bind_eq_ok h
    have hkeeps := (reads_foldlM_readEntry (fun _ _ _ => reads_of_ok) hrest).1.keeps
    -- the value is read, then the key, and then the entry is set
    obtain ⟨mid, hmid, hnext⟩ := exists_of_bind_eq_ok hnext
    obtain ⟨last, hlast, hset⟩ := exists_of_bind_eq_ok hnext
    have hvalue := reads_of_ok hmid
    have hkey := reads_of_ok hlast
    split at hset
    · next hscalar =>
      obtain ⟨rfl, rfl⟩ := Prod.mk.inj (Except.ok.inj hset)
      have hfront : ∀ e ∈ entries, (last.scalar? e.1).isSome = true := by
        intro e he
        exact isSome_scalar?_mono (hvalue.keeps.trans hkey.keeps).scalars (hentries e he)
      obtain ⟨hadds, hkeys, hvalues, hresult⟩ :=
        ih hrest (isSome_scalar?_of_mem_setEntry hfront hscalar)
      refine ⟨?_, ?_, ?_, ?_⟩
      · exact ((hread _ _ _ hmid).trans hvalue.keeps (hread _ _ _ hlast) hkey.keeps).trans
          (hvalue.keeps.trans hkey.keeps) hadds hkeeps
      · exact List.forall_mem_cons.mpr ⟨isSome_scalar?_mono hkeeps.scalars hscalar, hkeys⟩
      · refine List.forall_mem_cons.mpr ⟨?_, hvalues⟩
        exact hkeeps.filled (hkey.keeps.filled (hvalue.filled _ List.mem_cons_self))
      · rw [hresult, ← setEntry_mono hkeeps.scalars hfront hscalar]
        rfl
    · cases hset

/-- One step adds decoded nodes only. -/
theorem ReadStep.addsDecoded (h : ReadStep src budget nodes ref nodes')
    (hread : ∀ inner < budget, AddsDecodedEach src inner) : AddsDecoded src nodes nodes' := by
  cases h with
  | filled => exact .refl src nodes
  | @scalar s hfree hrecord =>
    refine (AddsDecoded.refl src nodes).set (fun _ _ => rfl) ?_ (.scalar hrecord)
    rw [Nodes.scalar?, hfree]
  -- a container: its parts have been read by now, and it is still the one that was entered
  | @array items inner last hfree hrecord hinner hitems =>
    have hreads := reads_foldlM (fun _ _ _ => reads_of_ok) hitems
    refine (addsDecoded_foldlM (hread inner hinner) hitems).set ?_
      (scalar?_of_entered hfree hreads.keeps (by simp)) (.array hrecord hreads.filled)
    exact fun i hi => Array.getElem?_setIfInBounds_ne (Ne.symm hi)
  | @dict keys values inner state hfree hrecord hinner hentries =>
    have hreads := (reads_foldlM_readEntry (fun _ _ _ => reads_of_ok) hentries).1
    obtain ⟨hadds, hkeys, hvalues, hresult⟩ :=
      entriesDecoded_foldlM (hread inner hinner) hentries (List.forall_mem_nil _)
    rw [hresult]
    refine hadds.set ?_ (scalar?_of_entered hfree hreads.keeps (by simp))
      (.dict hrecord hkeys hvalues)
    exact fun i hi => Array.getElem?_setIfInBounds_ne (Ne.symm hi)

/-- Every run of the reader adds decoded nodes only. -/
theorem addsDecoded_of_ok (h : readObject src budget nodes ref = .ok nodes') :
    AddsDecoded src nodes nodes' := by
  have hall : ∀ budget, AddsDecodedEach src budget := by
    intro budget
    induction budget using Nat.strongRecOn with
    | ind budget ih => exact fun nodes ref nodes' h => (readStep_of_ok h).addsDecoded ih
  exact hall budget nodes ref nodes' h

end

end PropertyList.Binary
