/-
  PropertyList.Proofs.Binary.Acceptance

  What is known of every graph that was read from a binary list, however the list
  was made.  Reading an object is one of four steps (`ReadStep`); each step keeps
  what was read before it and the invariant `Sound`, so a whole run does.  In the
  end every part is there, no two keys of a dictionary name the same entry, and
  every date is a valid one.
-/
import PropertyList.Proofs.Binary.RoundTrip

namespace PropertyList

namespace Binary

/-! ## Steps of reading -/

/-- How an object is read, if that succeeds: it had been read, or it is what its record says.  The
    parts of a container are read on a smaller budget, while an empty one stands in its place. -/
inductive ReadStep (src : Source) (budget : Nat) (nodes : Nodes) (ref : Nat) : Nodes → Prop where
  | filled (h : nodes.Filled ref) : ReadStep src budget nodes ref nodes
  | scalar {s : Scalar} (hfree : nodes[ref]? = some none)
      (hrecord : src.record? ref = some (.scalar s)) :
      ReadStep src budget nodes ref (nodes.setIfInBounds ref (some (.scalar s)))
  | array {items : List Nat} {inner : Nat} {last : Nodes} (hfree : nodes[ref]? = some none)
      (hrecord : src.record? ref = some (.array items)) (hinner : inner < budget)
      (hitems : items.foldlM (readObject src inner) (nodes.setIfInBounds ref (some (.array []))) =
        .ok last) :
      ReadStep src budget nodes ref (last.setIfInBounds ref (some (.array items)))
  | dict {keys values : List Nat} {inner : Nat} {state : Nodes × List (Nat × Nat)}
      (hfree : nodes[ref]? = some none) (hrecord : src.record? ref = some (.dict keys values))
      (hinner : inner < budget)
      (hentries : (keys.zip values).foldlM (readEntry src inner)
        (nodes.setIfInBounds ref (some (.dict [])), []) = .ok state) :
      ReadStep src budget nodes ref (state.1.setIfInBounds ref (some (.dict state.2)))

section

variable {src : Source} {budget ref : Nat} {nodes nodes' : Nodes}

/-- Reading that succeeds is one of the steps. -/
theorem readStep_of_ok (h : readObject src budget nodes ref = .ok nodes') :
    ReadStep src budget nodes ref nodes' := by
  cases budget with
  | zero => cases h
  | succ budget =>
    -- the state of the object decides first, then its record
    cases hstate : nodes[ref]? with
    | none =>
      rw [readObject, hstate] at h
      cases h
    | some state =>
      cases state with
      | some x =>
        rw [readObject_filled hstate] at h
        obtain rfl := Except.ok.inj h
        exact .filled ⟨x, hstate⟩
      | none =>
        cases hrecord : src.record? ref with
        | none =>
          rw [readObject, hstate] at h
          simp only [hrecord] at h
          cases h
        | some r =>
          cases r with
          | scalar s =>
            rw [readObject_scalar hstate hrecord] at h
            obtain rfl := Except.ok.inj h
            exact .scalar hstate hrecord
          | array items =>
            -- an array needs two more units, unless it is empty
            by_cases hbudget : budget < 2
            · rw [readObject_array_low hstate hrecord hbudget] at h
              split at h
              · next hempty =>
                obtain rfl := List.isEmpty_iff.mp hempty
                obtain rfl := Except.ok.inj h
                -- an empty array is entered as what it is in the end
                have hstep : ReadStep src (budget + 1) nodes ref _ :=
                  .array hstate hrecord (Nat.succ_pos budget) rfl
                rwa [Array.setIfInBounds_setIfInBounds] at hstep
              · cases h
            · obtain ⟨inner, rfl⟩ : ∃ inner, budget = inner + 2 := ⟨budget - 2, by omega⟩
              rw [readObject_array hstate hrecord] at h
              obtain ⟨last, hitems, rfl⟩ := exists_of_map_eq_ok h
              exact .array hstate hrecord (by omega) hitems
          | dict keys values =>
            rw [readObject_dict hstate hrecord] at h
            obtain ⟨state, hentries, rfl⟩ := exists_of_map_eq_ok h
            exact .dict hstate hrecord (Nat.lt_succ_self budget) hentries

end

/-! ## Keys -/

/-- Nodes that have been read as scalars, no two of which name the same entry. -/
structure DistinctKeys (nodes : Nodes) (keys : List Nat) : Prop where
  scalar : ∀ k ∈ keys, (nodes.scalar? k).isSome = true
  apart : keys.Pairwise fun j k => nodes.sameKey j k = false

/-- Every scalar stays what it is. -/
def KeepsScalars (nodes nodes' : Nodes) : Prop :=
  ∀ (i : Nat) (s : Scalar), nodes.scalar? i = some s → nodes'.scalar? i = some s

section Keys

variable {nodes nodes' : Nodes} {i j : Nat} {entries : List (Nat × Nat)} {key value : Nat}

theorem scalar?_eq_some {s : Scalar} :
    nodes.scalar? i = some s ↔ nodes[i]? = some (some (.scalar s)) := by
  unfold Nodes.scalar?
  constructor
  · intro h
    split at h
    · next t ht => rw [ht, Option.some.inj h]
    · cases h
  · intro h
    rw [h]

theorem Keeps.scalars (h : Keeps nodes nodes') : KeepsScalars nodes nodes' := by
  intro i s hs
  rw [scalar?_eq_some] at hs ⊢
  exact h.get i _ hs

theorem sameKey_of_scalar? {a b : Scalar} (hi : nodes.scalar? i = some a)
    (hj : nodes.scalar? j = some b) : nodes.sameKey i j = (i == j || a.sameKey b) := by
  rw [Nodes.sameKey, hi, hj]

theorem DistinctKeys.mono {keys : List Nat} (h : DistinctKeys nodes keys)
    (hkeeps : KeepsScalars nodes nodes') : DistinctKeys nodes' keys where
  scalar := by
    intro k hk
    obtain ⟨s, hs⟩ := Option.isSome_iff_exists.mp (h.scalar k hk)
    rw [hkeeps k s hs]
    rfl
  apart := by
    refine h.apart.imp_of_mem ?_
    intro j k hj hk hjk
    obtain ⟨a, ha⟩ := Option.isSome_iff_exists.mp (h.scalar j hj)
    obtain ⟨b, hb⟩ := Option.isSome_iff_exists.mp (h.scalar k hk)
    rw [sameKey_of_scalar? ha hb] at hjk
    rw [sameKey_of_scalar? (hkeeps j a ha) (hkeeps k b hb), hjk]

/-- A key that is there already keeps its place. -/
theorem map_fst_setEntry (h : ∃ e ∈ entries, nodes.sameKey e.1 key = true) :
    (nodes.setEntry entries key value).map (·.1) = entries.map (·.1) := by
  induction entries with
  | nil =>
    obtain ⟨e, he, -⟩ := h
    cases he
  | cons e entries ih =>
    obtain ⟨k, v⟩ := e
    by_cases hk : nodes.sameKey k key = true
    · rw [Nodes.setEntry, if_pos hk]
      rfl
    · rw [Nodes.setEntry, if_neg hk, List.map_cons, List.map_cons, ih]
      obtain ⟨f, hf, hsame⟩ := h
      rcases List.mem_cons.mp hf with rfl | hf
      · exact absurd hsame hk
      · exact ⟨f, hf, hsame⟩

/-- Setting an entry keeps the keys distinct. -/
theorem DistinctKeys.setEntry (h : DistinctKeys nodes (entries.map (·.1)))
    (hkey : (nodes.scalar? key).isSome = true) :
    DistinctKeys nodes ((nodes.setEntry entries key value).map (·.1)) := by
  -- a key that is there keeps its place, and a new one goes to the end
  by_cases hthere : ∃ e ∈ entries, nodes.sameKey e.1 key = true
  · rw [map_fst_setEntry hthere]
    exact h
  · have hnew : ∀ e ∈ entries, nodes.sameKey e.1 key = false := by
      intro e he
      exact Bool.eq_false_of_not_eq_true fun hsame => hthere ⟨e, he, hsame⟩
    rw [setEntry_of_forall_not hnew, List.map_append]
    refine ⟨?_, List.pairwise_append.mpr ⟨h.apart, List.pairwise_singleton _ _, ?_⟩⟩
    · intro k hk
      rcases List.mem_append.mp hk with hk | hk
      · exact h.scalar k hk
      · rw [List.mem_singleton.mp hk]
        exact hkey
    · intro j hj k hk
      obtain ⟨e, he, rfl⟩ := List.mem_map.mp hj
      rw [List.mem_singleton.mp hk]
      exact hnew e he

/-- The parts of the entries after one of them has been set. -/
theorem mem_setEntry {e : Nat × Nat} (h : e ∈ nodes.setEntry entries key value) :
    (e.1 = key ∨ ∃ f ∈ entries, e.1 = f.1) ∧ (e.2 = value ∨ ∃ f ∈ entries, e.2 = f.2) := by
  induction entries with
  | nil =>
    obtain rfl := List.mem_singleton.mp h
    exact ⟨.inl rfl, .inl rfl⟩
  | cons p entries ih =>
    obtain ⟨k, v⟩ := p
    rw [Nodes.setEntry] at h
    split at h
    -- the entry that was set, with the key that was there
    · rcases List.mem_cons.mp h with rfl | h
      · exact ⟨.inr ⟨(k, v), List.mem_cons_self, rfl⟩, .inl rfl⟩
      · exact ⟨.inr ⟨e, List.mem_cons_of_mem _ h, rfl⟩, .inr ⟨e, List.mem_cons_of_mem _ h, rfl⟩⟩
    · rcases List.mem_cons.mp h with rfl | h
      · exact ⟨.inr ⟨(k, v), List.mem_cons_self, rfl⟩, .inr ⟨(k, v), List.mem_cons_self, rfl⟩⟩
      · obtain ⟨hfst, hsnd⟩ := ih h
        refine ⟨hfst.imp_right ?_, hsnd.imp_right ?_⟩
        · rintro ⟨f, hf, heq⟩
          exact ⟨f, List.mem_cons_of_mem _ hf, heq⟩
        · rintro ⟨f, hf, heq⟩
          exact ⟨f, List.mem_cons_of_mem _ hf, heq⟩

end Keys

/-! ## The invariant -/

/-- Every scalar is that of its record, every part has been read, and keys are distinct. -/
structure Sound (src : Source) (nodes : Nodes) : Prop where
  scalar : ∀ (i : Nat) (s : Scalar), nodes[i]? = some (some (.scalar s)) →
    src.record? i = some (.scalar s)
  parts : ∀ (i : Nat) (x : Node), nodes[i]? = some (some x) → ∀ p ∈ x.parts, nodes.Filled p
  keys : ∀ (i : Nat) (es : List (Nat × Nat)), nodes[i]? = some (some (.dict es)) →
    DistinctKeys nodes (es.map (·.1))

section Invariant

variable {src : Source} {budget ref : Nat} {nodes nodes' : Nodes}

theorem filled_set {i p : Nat} (x : Node) (h : nodes.Filled p) :
    Nodes.Filled (nodes.setIfInBounds i (some x)) p := by
  obtain ⟨y, hy⟩ := h
  by_cases hip : i = p
  · subst hip
    exact ⟨x, Array.getElem?_setIfInBounds_self_of_lt (Array.getElem?_eq_some_iff.mp hy).1⟩
  · exact ⟨y, by rw [Array.getElem?_setIfInBounds_ne hip, hy]⟩

/-- Setting a node that is no scalar yet changes no scalar. -/
theorem keepsScalars_set {i : Nat} (hi : nodes.scalar? i = none) (x : Node) :
    KeepsScalars nodes (nodes.setIfInBounds i (some x)) := by
  intro j s hj
  have hij : i ≠ j := by
    rintro rfl
    rw [hi] at hj
    cases hj
  rw [scalar?_eq_some] at hj ⊢
  rw [Array.getElem?_setIfInBounds_ne hij, hj]

/-- A node that is no scalar yet may be set to what meets the invariant itself. -/
theorem Sound.set (h : Sound src nodes) {i : Nat} {x : Node} (hi : nodes.scalar? i = none)
    (hscalar : ∀ s, x = .scalar s → src.record? i = some (.scalar s))
    (hparts : ∀ p ∈ x.parts, nodes.Filled p)
    (hkeys : ∀ es, x = .dict es → DistinctKeys nodes (es.map (·.1))) :
    Sound src (nodes.setIfInBounds i (some x)) := by
  -- what is found at a place is what was set, or what was there
  have hget {j : Nat} {y : Node} (hj : (nodes.setIfInBounds i (some x))[j]? = some (some y)) :
      i = j ∧ y = x ∨ nodes[j]? = some (some y) := by
    by_cases hij : i = j
    · subst hij
      rw [Array.getElem?_setIfInBounds_self] at hj
      split at hj
      · exact .inl ⟨rfl, (Option.some.inj (Option.some.inj hj)).symm⟩
      · cases hj
    · rw [Array.getElem?_setIfInBounds_ne hij] at hj
      exact .inr hj
  refine ⟨?_, ?_, ?_⟩
  -- scalars are those of the records
  · intro j s hj
    rcases hget hj with ⟨rfl, hx⟩ | hj
    · exact hscalar s hx.symm
    · exact h.scalar j s hj
  -- parts stay filled, whatever else is set
  · intro j y hj p hp
    apply filled_set
    rcases hget hj with ⟨-, rfl⟩ | hj
    · exact hparts p hp
    · exact h.parts j y hj p hp
  -- keys stay distinct: what is set was no scalar, so no key has changed
  · intro j es hj
    refine DistinctKeys.mono ?_ (keepsScalars_set hi x)
    rcases hget hj with ⟨-, hx⟩ | hj
    · exact hkeys es hx.symm
    · exact h.keys j es hj

/-- What reading some objects does to the nodes. -/
structure Reads (src : Source) (refs : List Nat) (nodes nodes' : Nodes) : Prop where
  keeps : Keeps nodes nodes'
  filled : ∀ r ∈ refs, nodes'.Filled r
  sound : Sound src nodes → Sound src nodes'

/-- Reading one object on a given budget. -/
def ReadsEach (src : Source) (budget : Nat) : Prop :=
  ∀ nodes ref nodes', readObject src budget nodes ref = .ok nodes' → Reads src [ref] nodes nodes'

theorem reads_foldlM (hread : ReadsEach src budget) {items : List Nat}
    (h : items.foldlM (readObject src budget) nodes = .ok nodes') :
    Reads src items nodes nodes' := by
  induction items generalizing nodes with
  | nil =>
    obtain rfl := Except.ok.inj h
    exact ⟨.refl nodes, List.forall_mem_nil _, id⟩
  | cons i items ih =>
    rw [List.foldlM_cons] at h
    obtain ⟨next, hnext, hrest⟩ := exists_of_bind_eq_ok h
    have hfirst := hread nodes i next hnext
    have hlast := ih hrest
    refine ⟨hfirst.keeps.trans hlast.keeps, ?_, fun hsound => hlast.sound (hfirst.sound hsound)⟩
    intro r hr
    rcases List.mem_cons.mp hr with rfl | hr
    · exact hlast.keeps.filled (hfirst.filled r List.mem_cons_self)
    · exact hlast.filled r hr

/-- Entries of which everything has been read. -/
structure ReadEntries (nodes : Nodes) (entries : List (Nat × Nat)) : Prop where
  filled : ∀ e ∈ entries, nodes.Filled e.1 ∧ nodes.Filled e.2
  keys : DistinctKeys nodes (entries.map (·.1))

theorem ReadEntries.mono {entries : List (Nat × Nat)} (h : ReadEntries nodes entries)
    (hkeeps : Keeps nodes nodes') : ReadEntries nodes' entries where
  filled := by
    intro e he
    obtain ⟨hkey, hvalue⟩ := h.filled e he
    exact ⟨hkeeps.filled hkey, hkeeps.filled hvalue⟩
  keys := h.keys.mono hkeeps.scalars

/-- Reading an entry keeps what was read, and sets the entry. -/
theorem reads_readEntry (hread : ReadsEach src budget) {entries : List (Nat × Nat)} {p : Nat × Nat}
    {state : Nodes × List (Nat × Nat)}
    (h : readEntry src budget (nodes, entries) p = .ok state) :
    Reads src [p.2, p.1] nodes state.1 ∧
      (ReadEntries nodes entries → ReadEntries state.1 state.2) := by
  obtain ⟨mid, hmid, h⟩ := exists_of_bind_eq_ok h
  obtain ⟨last, hlast, h⟩ := exists_of_bind_eq_ok h
  have hvalue := hread _ _ _ hmid
  have hkey := hread _ _ _ hlast
  -- the value is read first, and the key may only add to it
  have hreads : Reads src [p.2, p.1] nodes last := by
    refine ⟨hvalue.keeps.trans hkey.keeps, ?_, fun hsound => hkey.sound (hvalue.sound hsound)⟩
    intro r hr
    rcases List.mem_pair.mp hr with rfl | rfl
    · exact hkey.keeps.filled (hvalue.filled _ List.mem_cons_self)
    · exact hkey.filled _ List.mem_cons_self
  split at h
  · next hscalar =>
    obtain rfl := Except.ok.inj h
    refine ⟨hreads, ?_⟩
    intro hentries
    -- the parts of an entry come from the entries before or from the two that were read
    have hmono := hentries.mono hreads.keeps
    refine ⟨?_, hmono.keys.setEntry hscalar⟩
    intro e he
    obtain ⟨hfst, hsnd⟩ := mem_setEntry he
    constructor
    · rcases hfst with heq | ⟨f, hf, heq⟩
      · rw [heq]
        exact hreads.filled p.1 (by simp)
      · rw [heq]
        exact (hmono.filled f hf).1
    · rcases hsnd with heq | ⟨f, hf, heq⟩
      · rw [heq]
        exact hreads.filled p.2 (by simp)
      · rw [heq]
        exact (hmono.filled f hf).2
  · cases h

theorem reads_foldlM_readEntry (hread : ReadsEach src budget) {pairs entries : List (Nat × Nat)}
    {state : Nodes × List (Nat × Nat)}
    (h : pairs.foldlM (readEntry src budget) (nodes, entries) = .ok state) :
    Reads src [] nodes state.1 ∧ (ReadEntries nodes entries → ReadEntries state.1 state.2) := by
  induction pairs generalizing nodes entries with
  | nil =>
    obtain rfl := Except.ok.inj h
    exact ⟨⟨.refl nodes, List.forall_mem_nil _, id⟩, id⟩
  | cons p pairs ih =>
    rw [List.foldlM_cons] at h
    obtain ⟨⟨next, entries'⟩, hnext, hrest⟩ := exists_of_bind_eq_ok h
    obtain ⟨hfirst, hentries⟩ := reads_readEntry hread hnext
    obtain ⟨hlast, hentries'⟩ := ih hrest
    refine ⟨⟨hfirst.keeps.trans hlast.keeps, List.forall_mem_nil _, ?_⟩, ?_⟩
    · exact fun hsound => hlast.sound (hfirst.sound hsound)
    · exact fun h => hentries' (hentries h)

theorem filled_of_set {x : Node} {last : Nodes} (hfree : nodes[ref]? = some none)
    (hsize : last.size = nodes.size) : ∀ r ∈ [ref], Nodes.Filled (last.setIfInBounds ref (some x)) r := by
  have hlt : ref < nodes.size := (Array.getElem?_eq_some_iff.mp hfree).1
  intro r hr
  rw [List.mem_singleton.mp hr]
  exact ⟨x, Array.getElem?_setIfInBounds_self_of_lt (hsize ▸ hlt)⟩

/-- A container is read by reading its parts, while an empty one stands in its place. -/
theorem Reads.container {x₀ x : Node} {parts : List Nat} {last : Nodes}
    (hlast : Reads src parts (nodes.setIfInBounds ref (some x₀)) last)
    (hfree : nodes[ref]? = some none) (hempty : x₀ = .array [] ∨ x₀ = .dict [])
    (hnot : ∀ s, x ≠ .scalar s) (hparts : ∀ p ∈ x.parts, last.Filled p)
    (hkeys : ∀ es, x = .dict es → DistinctKeys last (es.map (·.1))) :
    Reads src [ref] nodes (last.setIfInBounds ref (some x)) := by
  have hlt : ref < nodes.size := (Array.getElem?_eq_some_iff.mp hfree).1
  have hentered : Keeps nodes last := ((Keeps.refl nodes).set hfree x₀).trans hlast.keeps
  refine ⟨hentered.set hfree x, filled_of_set hfree hentered.size, fun hsound => ?_⟩
  -- the empty container meets the invariant: it has no parts
  have hstart : Sound src (nodes.setIfInBounds ref (some x₀)) := by
    have hscalar : nodes.scalar? ref = none := by rw [Nodes.scalar?, hfree]
    rcases hempty with rfl | rfl
    · refine hsound.set hscalar ?_ (List.forall_mem_nil _) ?_
      · rintro s ⟨⟩
      · rintro es ⟨⟩
    · refine hsound.set hscalar ?_ (List.forall_mem_nil _) ?_
      · rintro s ⟨⟩
      · rintro es ⟨⟩
        exact ⟨List.forall_mem_nil _, .nil⟩
  -- the empty container that was entered is still there
  have hopen : last.scalar? ref = none := by
    rw [Nodes.scalar?, hlast.keeps.get _ _ (Array.getElem?_setIfInBounds_self_of_lt hlt)]
    rcases hempty with rfl | rfl <;> rfl
  exact (hlast.sound hstart).set hopen (fun s hs => absurd hs (hnot s)) hparts hkeys

/-- One step keeps what was read, and the invariant. -/
theorem ReadStep.reads (h : ReadStep src budget nodes ref nodes')
    (hread : ∀ inner < budget, ReadsEach src inner) : Reads src [ref] nodes nodes' := by
  cases h with
  | filled h =>
    refine ⟨.refl nodes, ?_, id⟩
    intro r hr
    rwa [List.mem_singleton.mp hr]
  | @scalar s hfree hrecord =>
    refine ⟨(Keeps.refl nodes).set hfree _, filled_of_set hfree rfl, ?_⟩
    intro hsound
    refine hsound.set (by rw [Nodes.scalar?, hfree]) ?_ (List.forall_mem_nil _) ?_
    · rintro t ⟨⟩
      exact hrecord
    · rintro es ⟨⟩
  -- containers: the invariant holds again once all parts have been read
  | @array items inner last hfree hrecord hinner hitems =>
    have hlast := reads_foldlM (hread inner hinner) hitems
    refine hlast.container hfree (.inl rfl) ?_ hlast.filled ?_
    · rintro s ⟨⟩
    · rintro es ⟨⟩
  | @dict keys values inner state hfree hrecord hinner hentries =>
    obtain ⟨hlast, hall⟩ := reads_foldlM_readEntry (hread inner hinner) hentries
    have hnone : ReadEntries (nodes.setIfInBounds ref (some (.dict []))) [] :=
      ⟨List.forall_mem_nil _, List.forall_mem_nil _, .nil⟩
    obtain ⟨hfilled, hkeys⟩ := hall hnone
    refine hlast.container hfree (.inr rfl) ?_ (Node.forall_parts_dict.mpr hfilled) ?_
    · rintro s ⟨⟩
    · rintro es ⟨⟩
      exact hkeys

/-- Every run of the reader keeps what was read, and the invariant. -/
theorem reads_of_ok (h : readObject src budget nodes ref = .ok nodes') :
    Reads src [ref] nodes nodes' := by
  have hall : ∀ budget, ReadsEach src budget := by
    intro budget
    induction budget using Nat.strongRecOn with
    | ind budget ih => exact fun nodes ref nodes' h => (readStep_of_ok h).reads ih
  exact hall budget nodes ref nodes' h

end Invariant

/-! ## Graphs that were read -/

/-- A date is read from a real number of seconds. -/
theorem exists_seconds_of_decode? {refSize : Nat} {bytes : List UInt8} {t : DateTime}
    (h : Record.decode? refSize bytes = some (.scalar (.date t))) :
    ∃ x, DateTime.ofSeconds? x = some t := by
  cases bytes with
  | nil => cases h
  | cons b s =>
    rw [Record.decode?] at h
    unfold Record.decodeBody? at h
    -- the kinds of records are told apart by their markers; only one of them is a date
    split at h
    case h_4 =>
      split at h
      · obtain ⟨⟨bytes, rest⟩, -, h⟩ := Option.bind_eq_some_iff.mp h
        obtain ⟨t', hdate, h⟩ := Option.bind_eq_some_iff.mp h
        obtain rfl := Scalar.date.inj (Record.scalar.inj (Option.some.inj h))
        exact ⟨_, hdate⟩
      · cases h
    case h_1 => split at h <;> cases h
    case h_2 => cases h
    case h_3 => split at h <;> simp at h
    case h_8 =>
      dsimp only at h
      split at h <;> cases h
    case h_11 => cases h
    all_goals
      simp only [Option.bind_eq_bind, Option.bind_eq_some_iff] at h
      grind

/-- A list can be read if it has room for a trailer and a table, and its objects can be read from the
    root on. -/
theorem exists_reading_of_read {bytes : List UInt8} {g : Graph} (h : read bytes = .ok g) :
    ∃ t offsets rest nodes, t = Trailer.decode (bytes.drop (bytes.length - 32)) ∧
      Record.takeNumbers? t.offsetSize t.objectCount (bytes.drop t.tableOffset) =
        some (offsets, rest) ∧
      readObject ⟨bytes, t.refSize, offsets.toArray⟩ readBudget
        (Array.replicate t.objectCount none) t.root = .ok nodes ∧ g = graphOf nodes t.root := by
  unfold read at h
  dsimp only at h
  split at h
  · cases h
  · split at h
    · cases h
    · next offsets rest htable =>
      obtain ⟨nodes, hnodes, h⟩ := exists_of_bind_eq_ok h
      obtain rfl := Except.ok.inj h
      exact ⟨_, offsets, rest, nodes, rfl, htable, hnodes, rfl⟩

/-- At the start nothing has been read. -/
theorem not_filled_replicate (n i : Nat) (x : Node) :
    (Array.replicate n (none : Option Node))[i]? ≠ some (some x) := by
  rw [Array.getElem?_replicate]
  split <;> simp

/-- A list that was read left its objects in a sound state, the root among them. -/
theorem exists_sound_of_read {bytes : List UInt8} {g : Graph} (h : read bytes = .ok g) :
    ∃ src nodes root, g = graphOf nodes root ∧ Sound src nodes ∧ nodes.Filled root := by
  obtain ⟨t, offsets, rest, nodes, -, -, hnodes, rfl⟩ := exists_reading_of_read h
  have hreads := reads_of_ok hnodes
  refine ⟨_, nodes, _, rfl, hreads.sound ?_, hreads.filled _ List.mem_cons_self⟩
  exact ⟨fun _ _ hi => absurd hi (not_filled_replicate _ _ _),
    fun _ _ hi => absurd hi (not_filled_replicate _ _ _),
    fun _ _ hi => absurd hi (not_filled_replicate _ _ _)⟩

end Binary

namespace Graph

/-- Whether two nodes are one and the same key, or name the same entry. -/
def sameKey (g : Graph) (i j : Nat) : Bool := i == j || (g.scalarAt i).sameKey (g.scalarAt j)

/-- Every part of a node is there, and the keys of a dictionary are scalars, no two of which name
    the same entry. -/
structure WellFormed (g : Graph) : Prop where
  parts : ∀ (i : Nat) (x : Node), g.nodes[i]? = some x → ∀ p ∈ x.parts, p < g.nodes.size
  key : ∀ (i : Nat) (es : List (Nat × Nat)), g.nodes[i]? = some (.dict es) →
    ∀ e ∈ es, ∃ s, g.nodes[e.1]? = some (.scalar s)
  apart : ∀ (i : Nat) (es : List (Nat × Nat)), g.nodes[i]? = some (.dict es) →
    es.Pairwise fun e f => g.sameKey e.1 f.1 = false

end Graph

namespace Binary

variable {bytes : List UInt8} {g : Graph}

/-- A node that was read has its place in the graph, and the other nodes of the graph are null. -/
theorem eq_or_filled_of_graphOf {nodes : Nodes} {root i : Nat} {x : Node}
    (h : (graphOf nodes root).nodes[i]? = some x) :
    x = .scalar .null ∨ nodes[i]? = some (some x) := by
  rw [graphOf, Array.getElem?_map, Option.map_eq_some_iff] at h
  obtain ⟨y, hy, rfl⟩ := h
  cases y with
  | none => exact .inl rfl
  | some y => exact .inr hy

theorem lt_size_of_filled {nodes : Nodes} {root i : Nat} (h : nodes.Filled i) :
    i < (graphOf nodes root).nodes.size := by
  obtain ⟨x, hx⟩ := h
  rw [graphOf, Array.size_map]
  exact (Array.getElem?_eq_some_iff.mp hx).1

theorem getElem?_graphOf_of_scalar? {nodes : Nodes} {root i : Nat} {s : Scalar}
    (h : nodes.scalar? i = some s) : (graphOf nodes root).nodes[i]? = some (.scalar s) :=
  getElem?_graphOf (scalar?_eq_some.mp h)

/-- A sound state makes a well-formed graph. -/
theorem Sound.wellFormed {src : Source} {nodes : Nodes} {root : Nat} (h : Sound src nodes) :
    (graphOf nodes root).WellFormed where
  -- a root that was never filled is a scalar, and has no parts
  parts := by
    intro i x hx p hp
    rcases eq_or_filled_of_graphOf hx with rfl | hx
    · cases hp
    · exact lt_size_of_filled (h.parts i x hx p hp)
  key := by
    intro i es hes e he
    have hkeys := h.keys i es ((eq_or_filled_of_graphOf hes).resolve_left (by simp))
    obtain ⟨s, hs⟩ := Option.isSome_iff_exists.mp (hkeys.scalar e.1 (List.mem_map_of_mem he))
    exact ⟨s, getElem?_graphOf_of_scalar? hs⟩
  apart := by
    intro i es hes
    have hkeys := h.keys i es ((eq_or_filled_of_graphOf hes).resolve_left (by simp))
    refine (List.pairwise_map.mp hkeys.apart).imp_of_mem ?_
    intro e f he hf hef
    obtain ⟨s, hs⟩ := Option.isSome_iff_exists.mp (hkeys.scalar e.1 (List.mem_map_of_mem he))
    obtain ⟨t, ht⟩ := Option.isSome_iff_exists.mp (hkeys.scalar f.1 (List.mem_map_of_mem hf))
    rw [sameKey_of_scalar? hs ht] at hef
    rw [Graph.sameKey, Graph.scalarAt_eq_of_getElem? (getElem?_graphOf_of_scalar? hs),
      Graph.scalarAt_eq_of_getElem? (getElem?_graphOf_of_scalar? ht), hef]

/-- Whatever list it was read from, a graph is well-formed. -/
theorem wellFormed_of_read (h : read bytes = .ok g) : g.WellFormed ∧ g.root < g.nodes.size := by
  obtain ⟨src, nodes, root, rfl, hsound, hroot⟩ := exists_sound_of_read h
  exact ⟨hsound.wellFormed, lt_size_of_filled hroot⟩

/-- Whatever list it was read from, all dates of a graph were read from real numbers of seconds. -/
theorem exists_seconds_of_read (h : read bytes = .ok g) {i : Nat} {t : DateTime}
    (ht : g.node i = .scalar (.date t)) : ∃ x, DateTime.ofSeconds? x = some t := by
  obtain ⟨src, nodes, root, rfl, hsound, -⟩ := exists_sound_of_read h
  have hget := Graph.getElem?_of_node ht (by simp)
  have hfilled := (eq_or_filled_of_graphOf hget).resolve_left (by simp)
  have hrecord := hsound.scalar i _ hfilled
  rw [Source.record?] at hrecord
  obtain ⟨offset, -, hdecode⟩ := Option.bind_eq_some_iff.mp hrecord
  exact exists_seconds_of_decode? hdecode

/-- So all its dates are valid. -/
theorem isValid_of_read (h : read bytes = .ok g) {i : Nat} {t : DateTime}
    (ht : g.node i = .scalar (.date t)) : t.IsValid := by
  obtain ⟨x, hx⟩ := exists_seconds_of_read h ht
  exact DateTime.isValid_of_ofSeconds? hx

end Binary

end PropertyList
