/-
  PropertyList.Proofs.Binary.Plain

  Reading with a table of objects gives what plain decoding gives.  `plain?` decodes an
  object straight from the bytes, down to some depth, and looks up every reference
  again; it knows no table and no nodes.  Since a `DecodedTable` holds nothing but what
  is decoded from the bytes, the graph unfolds to the plain tree at every depth, and
  each object is one node wherever it is referred to.
-/
import PropertyList.Proofs.Binary.Decoded
import PropertyList.Proofs.Binary.Fixpoint
import PropertyList.Proofs.Binary.Lookup
import Mathlib.Data.Set.Card

namespace PropertyList

namespace Binary

/-! ## Plain decoding -/

/-- The scalar that a record is, as a key has to be. -/
def Record.scalar? : Record → Option Scalar
  | .scalar s => some s
  | _ => none

/-- The key to which there is a reference. -/
def keyAt? (bytes : List UInt8) (ref : Nat) : Option Scalar :=
  (recordAt? bytes ref).bind Record.scalar?

/-- The entry that two references give, if `decode` decodes the value. -/
def plainPair? (bytes : List UInt8) (decode : Nat → Option Value) (p : Nat × Nat) :
    Option (Scalar × Value) := do
  let key ← keyAt? bytes p.1
  let value ← decode p.2
  some (key, value)

/-- The tree that a record gives, if `decode` decodes the objects to which it refers. -/
def Record.plain? (bytes : List UInt8) (decode : Nat → Option Value) : Record → Option Value
  | .scalar s => some (.scalar s)
  | .array items => (items.mapM decode).map .array
  | .dict keys values => ((keys.zip values).mapM (plainPair? bytes decode)).map .ofEntries

/-- The tree below an object down to a given depth, where null stands for all that lies deeper.
    An object that is referred to twice is decoded twice. -/
def plain? (bytes : List UInt8) : Nat → Nat → Option Value
  | 0, _ => some .null
  | depth + 1, ref => (recordAt? bytes ref).bind (Record.plain? bytes (plain? bytes depth))

/-- The last of some pairs whose key is a given scalar. -/
def lastPair? (bytes : List UInt8) (pairs : List (Nat × Nat)) (key : Scalar) :
    Option (Nat × Nat) :=
  pairs.reverse.find? fun p => keyAt? bytes p.1 = some key

/-- A node stands where there is a reference to an object: the root, the items of an array in
    their order, and the values of a dictionary by their keys. -/
inductive Shows (bytes : List UInt8) (g : Graph) : Nat → Nat → Prop where
  | root : Shows bytes g g.root (trailer bytes).root
  | item {i ref : Nat} {items refs : List Nat} {p : Nat × Nat} (h : Shows bytes g i ref)
      (hnode : g.node i = .array items) (hrecord : recordAt? bytes ref = some (.array refs))
      (hp : p ∈ items.zip refs) : Shows bytes g p.1 p.2
  | value {i ref : Nat} {entries : List (Nat × Nat)} {keys values : List Nat} {e p : Nat × Nat}
      (h : Shows bytes g i ref) (hnode : g.node i = .dict entries)
      (hrecord : recordAt? bytes ref = some (.dict keys values)) (he : e ∈ entries)
      (hp : lastPair? bytes (keys.zip values) (g.scalarAt e.1) = some p) : Shows bytes g e.2 p.2

/-! ## Tables -/

/-- A table that a whole run has filled: all that it holds is decoded from the bytes. -/
structure DecodedTable (bytes : List UInt8) (src : Source) (nodes : Nodes) : Prop where
  record : ∀ ref, src.record? ref = recordAt? bytes ref
  decoded : ∀ (i : Nat) (x : Node), nodes[i]? = some (some x) → Decoded src nodes i x
  sound : Sound src nodes
  root : nodes.Filled (trailer bytes).root
  size : nodes.size = (trailer bytes).objectCount

/-- Every list that was read has left such a table. -/
theorem exists_decodedTable_of_read {bytes : List UInt8} {g : Graph} (h : read bytes = .ok g) :
    ∃ src nodes, g = graphOf nodes (trailer bytes).root ∧ DecodedTable bytes src nodes := by
  obtain ⟨t, offsets, rest, nodes, rfl, htable, hnodes, rfl⟩ := exists_reading_of_read h
  have hreads := reads_of_ok hnodes
  -- the table was empty at first, so all that it holds was decoded
  have hempty {n i : Nat} {x : Node} {P : Prop}
      (hx : (Array.replicate n (none : Option Node))[i]? = some (some x)) : P :=
    absurd hx (not_filled_replicate n i x)
  refine ⟨_, nodes, rfl, ?_, ?_, hreads.sound ⟨?_, ?_, ?_⟩, ?_, ?_⟩
  · intro ref
    rw [Source.record?, recordAt?, offset?_eq_getElem? htable, List.getElem?_toArray]
    rfl
  · intro i x hx
    refine addsDecoded_of_ok hnodes i x ?_ hx
    rw [Array.getElem?_replicate, if_pos]
    have hlt := (Array.getElem?_eq_some_iff.mp hx).1
    rwa [hreads.keeps.size, Array.size_replicate] at hlt
  · exact fun _ _ => hempty
  · exact fun _ _ => hempty
  · exact fun _ _ => hempty
  · exact hreads.filled _ List.mem_cons_self
  · rw [hreads.keeps.size, Array.size_replicate]
    rfl

/-! ## Keys that are text -/

section Keys

variable {nodes : Nodes} {root : Nat} {i j key value : Nat} {entries pairs : List (Nat × Nat)}

theorem scalarAt_of_scalar? {s : Scalar} (h : nodes.scalar? i = some s) :
    (graphOf nodes root).scalarAt i = s :=
  Graph.scalarAt_eq_of_getElem? (getElem?_graphOf_of_scalar? h)

/-- A node that has been read as text. -/
def Nodes.IsText (nodes : Nodes) (i : Nat) : Prop := ∃ t, nodes.scalar? i = some (.text t)

theorem Nodes.IsText.isSome (h : nodes.IsText i) : (nodes.scalar? i).isSome = true := by
  obtain ⟨t, ht⟩ := h
  rw [ht]
  rfl

/-- Text names the same entry as the same text only. -/
theorem sameKey_eq (root : Nat) (hi : nodes.IsText i) (hj : (nodes.scalar? j).isSome = true) :
    nodes.sameKey i j =
      decide ((graphOf nodes root).scalarAt i = (graphOf nodes root).scalarAt j) := by
  obtain ⟨t, ht⟩ := hi
  obtain ⟨b, hb⟩ := Option.isSome_iff_exists.mp hj
  rw [sameKey_of_scalar? ht hb, scalarAt_of_scalar? ht, scalarAt_of_scalar? hb]
  have htext : (Scalar.text t).sameKey b = decide (Scalar.text t = b) := by
    simp [Scalar.sameKey, Scalar.isNumber]
  rw [htext]
  by_cases hij : i = j
  · subst hij
    obtain rfl := Option.some.inj (ht.symm.trans hb)
    simp
  · rw [beq_eq_false_iff_ne.mpr hij, Bool.false_or]

/-- A key that is the same as a text is that text. -/
theorem Nodes.IsText.of_sameKey (hi : nodes.IsText i) (hj : (nodes.scalar? j).isSome = true)
    (h : nodes.sameKey i j = true) : nodes.IsText j := by
  rw [sameKey_eq 0 hi hj, decide_eq_true_iff] at h
  obtain ⟨t, ht⟩ := hi
  obtain ⟨b, hb⟩ := Option.isSome_iff_exists.mp hj
  rw [scalarAt_of_scalar? ht, scalarAt_of_scalar? hb] at h
  exact ⟨t, by rw [hb, h]⟩

/-! ### Setting entries -/

/-- Once it is set, there is an entry for a key, and all keys that were there are. -/
theorem exists_sameKey_setEntry (nodes : Nodes) (entries : List (Nat × Nat)) (key value : Nat) :
    (∃ e ∈ nodes.setEntry entries key value, nodes.sameKey e.1 key = true) ∧
      entries.map (·.1) ⊆ (nodes.setEntry entries key value).map (·.1) := by
  by_cases hthere : ∃ e ∈ entries, nodes.sameKey e.1 key = true
  · have hkeys : (nodes.setEntry entries key value).map (·.1) = entries.map (·.1) :=
      map_fst_setEntry hthere
    refine ⟨?_, hkeys ▸ List.Subset.refl _⟩
    obtain ⟨e, he, hsame⟩ := hthere
    have hmem : e.1 ∈ (nodes.setEntry entries key value).map (·.1) := by
      rw [hkeys]
      exact List.mem_map_of_mem he
    obtain ⟨f, hf, hfe⟩ := List.mem_map.mp hmem
    exact ⟨f, hf, by rw [hfe, hsame]⟩
  · have hnew : ∀ e ∈ entries, nodes.sameKey e.1 key = false := by
      intro e he
      exact Bool.eq_false_of_not_eq_true fun hsame => hthere ⟨e, he, hsame⟩
    rw [setEntry_of_forall_not hnew, List.map_append]
    refine ⟨⟨(key, value), by simp, ?_⟩, List.subset_append_left _ _⟩
    rw [Nodes.sameKey, beq_self_eq_true, Bool.true_or]

/-- If all keys are text in the end, all keys that were set are. -/
theorem isText_of_setEntries (hkeys : ∀ p ∈ pairs, (nodes.scalar? p.1).isSome = true)
    (h : ∀ e ∈ nodes.setEntries entries pairs, nodes.IsText e.1) :
    (∀ p ∈ pairs, nodes.IsText p.1) ∧ ∀ e ∈ entries, nodes.IsText e.1 := by
  induction pairs generalizing entries with
  | nil => exact ⟨List.forall_mem_nil _, h⟩
  | cons p pairs ih =>
    obtain ⟨hpairs, hset⟩ := ih (fun q hq => hkeys q (List.mem_cons_of_mem _ hq)) h
    obtain ⟨⟨e, he, hsame⟩, hsubset⟩ := exists_sameKey_setEntry nodes entries p.1 p.2
    refine ⟨List.forall_mem_cons.mpr ⟨?_, hpairs⟩, ?_⟩
    · exact (hset e he).of_sameKey (hkeys p List.mem_cons_self) hsame
    · intro f hf
      obtain ⟨f', hf', heq⟩ := List.mem_map.mp (hsubset (List.mem_map_of_mem hf))
      rw [← heq]
      exact hset f' hf'

/-- Setting an entry in the table is setting it in the tree. -/
theorem setEntry_shown (root : Nat) (w : Nat → Value) (hentries : ∀ e ∈ entries, nodes.IsText e.1)
    (hkey : nodes.IsText key) :
    Value.setEntry (entries.map fun e => ((graphOf nodes root).scalarAt e.1, w e.2))
        ((graphOf nodes root).scalarAt key) (w value) =
      (nodes.setEntry entries key value).map
        fun e => ((graphOf nodes root).scalarAt e.1, w e.2) := by
  induction entries with
  | nil => rfl
  | cons e entries ih =>
    obtain ⟨k, v⟩ := e
    obtain ⟨hk, hrest⟩ := List.forall_mem_cons.mp hentries
    obtain ⟨t, ht⟩ := hk
    have hsame : ((graphOf nodes root).scalarAt k).sameKey ((graphOf nodes root).scalarAt key) =
        nodes.sameKey k key := by
      obtain ⟨u, hu⟩ := hkey
      rw [sameKey_eq root ⟨t, ht⟩ (Nodes.IsText.isSome ⟨u, hu⟩), scalarAt_of_scalar? ht,
        scalarAt_of_scalar? hu, Scalar.sameKey_text]
      simp
    rw [List.map_cons, Value.setEntry, Nodes.setEntry, hsame, ih hrest]
    split <;> rfl

theorem setEntries_concat (nodes : Nodes) (entries pairs : List (Nat × Nat)) (p : Nat × Nat) :
    nodes.setEntries entries (pairs ++ [p]) =
      nodes.setEntry (nodes.setEntries entries pairs) p.1 p.2 := by
  rw [Nodes.setEntries, List.foldl_append]
  rfl

/-- All parts of the entries come from the pairs that were set. -/
theorem mem_setEntries {e : Nat × Nat} (he : e ∈ nodes.setEntries [] pairs) :
    (∃ p ∈ pairs, e.1 = p.1) ∧ ∃ p ∈ pairs, e.2 = p.2 := by
  induction pairs using List.reverseRecOn generalizing e with
  | nil => cases he
  | append_singleton pairs p ih =>
    rw [setEntries_concat] at he
    obtain ⟨hkey, hvalue⟩ := mem_setEntry he
    have hlast : p ∈ pairs ++ [p] := List.mem_append_right _ List.mem_cons_self
    constructor
    · rcases hkey with heq | ⟨f, hf, heq⟩
      · exact ⟨p, hlast, heq⟩
      · obtain ⟨q, hq, hfq⟩ := (ih hf).1
        exact ⟨q, List.mem_append_left _ hq, heq.trans hfq⟩
    · rcases hvalue with heq | ⟨f, hf, heq⟩
      · exact ⟨p, hlast, heq⟩
      · obtain ⟨q, hq, hfq⟩ := (ih hf).2
        exact ⟨q, List.mem_append_left _ hq, heq.trans hfq⟩

theorem isText_of_mem_setEntries (hpairs : ∀ p ∈ pairs, nodes.IsText p.1) :
    ∀ e ∈ nodes.setEntries [] pairs, nodes.IsText e.1 := by
  intro e he
  obtain ⟨p, hp, heq⟩ := (mem_setEntries he).1
  rw [heq]
  exact hpairs p hp

/-- Setting entries in the table is setting them in the tree. -/
theorem ofEntries_shown (root : Nat) (w : Nat → Value) (hpairs : ∀ p ∈ pairs, nodes.IsText p.1) :
    Value.ofEntries (pairs.map fun p => ((graphOf nodes root).scalarAt p.1, w p.2)) =
      .dict ((nodes.setEntries [] pairs).map
        fun e => ((graphOf nodes root).scalarAt e.1, w e.2)) := by
  rw [Value.ofEntries, Value.dict.injEq]
  induction pairs using List.reverseRecOn with
  | nil => rfl
  | append_singleton pairs p ih =>
    have hfront : ∀ q ∈ pairs, nodes.IsText q.1 := fun q hq => hpairs q (List.mem_append_left _ hq)
    rw [List.map_append, List.foldl_append, ih hfront, setEntries_concat,
      ← setEntry_shown root w (isText_of_mem_setEntries hfront) (hpairs p (by simp))]
    rfl

/-- An entry with the key that was set has the new value, and the others were there before. -/
theorem mem_setEntry_of_distinct (root : Nat) (hdistinct : DistinctKeys nodes (entries.map (·.1)))
    (hentries : ∀ e ∈ entries, nodes.IsText e.1) (hkey : nodes.IsText key) {e : Nat × Nat}
    (he : e ∈ nodes.setEntry entries key value) :
    (graphOf nodes root).scalarAt e.1 = (graphOf nodes root).scalarAt key ∧ e.2 = value ∨
      (graphOf nodes root).scalarAt e.1 ≠ (graphOf nodes root).scalarAt key ∧ e ∈ entries := by
  induction entries with
  | nil =>
    obtain rfl := List.mem_singleton.mp he
    exact .inl ⟨rfl, rfl⟩
  | cons f entries ih =>
    obtain ⟨k, v⟩ := f
    obtain ⟨hk, hrest⟩ := List.forall_mem_cons.mp hentries
    have hsame := sameKey_eq root hk hkey.isSome
    obtain ⟨hhead, htail⟩ := List.pairwise_cons.mp hdistinct.apart
    rw [Nodes.setEntry] at he
    split at he
    · next hfound =>
      rw [hsame, decide_eq_true_iff] at hfound
      rcases List.mem_cons.mp he with rfl | he
      · exact .inl ⟨hfound, rfl⟩
      -- no later entry has the key that was found
      · have hapart := hhead e.1 (List.mem_map_of_mem he)
        rw [sameKey_eq root hk (hrest e he).isSome, decide_eq_false_iff_not] at hapart
        exact .inr ⟨fun heq => hapart (hfound.trans heq.symm), List.mem_cons_of_mem _ he⟩
    · next hother =>
      rw [hsame, decide_eq_true_iff] at hother
      rcases List.mem_cons.mp he with rfl | he
      · exact .inr ⟨hother, List.mem_cons_self⟩
      · have hdistinct' : DistinctKeys nodes (entries.map (·.1)) :=
          ⟨fun q hq => hdistinct.scalar q (List.mem_cons_of_mem _ hq), htail⟩
        exact (ih hdistinct' hrest he).imp_right
          fun h => ⟨h.1, List.mem_cons_of_mem _ h.2⟩

theorem distinctKeys_setEntries (hkeys : ∀ p ∈ pairs, (nodes.scalar? p.1).isSome = true) :
    DistinctKeys nodes ((nodes.setEntries [] pairs).map (·.1)) := by
  induction pairs using List.reverseRecOn with
  | nil => exact ⟨List.forall_mem_nil _, .nil⟩
  | append_singleton pairs p ih =>
    rw [setEntries_concat]
    exact (ih fun q hq => hkeys q (List.mem_append_left _ hq)).setEntry (hkeys p (by simp))

end Keys

/-! ## Decoding what has been read -/

/-- If a function gives what another one says, so does mapping it. -/
theorem mapM_eq_some_map {α β : Type} {f : α → Option β} {f' : α → β} {as : List α}
    (h : ∀ a ∈ as, f a = some (f' a)) : as.mapM f = some (as.map f') := by
  induction as with
  | nil => rfl
  | cons a as ih =>
    rw [List.mapM_cons, h a List.mem_cons_self, ih fun b hb => h b (List.mem_cons_of_mem _ hb)]
    rfl

namespace DecodedTable

variable {bytes : List UInt8} {src : Source} {nodes : Nodes} {root i : Nat}

theorem keyAt?_of_scalar? (h : DecodedTable bytes src nodes) {k : Nat} {s : Scalar}
    (hs : nodes.scalar? k = some s) : keyAt? bytes k = some s := by
  rw [keyAt?, ← h.record, h.sound.scalar k s (scalar?_eq_some.mp hs)]
  rfl

/-- Of the values that were set under a key that is text, the last one is left. -/
theorem exists_lastPair? (h : DecodedTable bytes src nodes) (root : Nat) {pairs : List (Nat × Nat)}
    (hpairs : ∀ p ∈ pairs, nodes.IsText p.1) {e : Nat × Nat}
    (he : e ∈ nodes.setEntries [] pairs) :
    ∃ p, lastPair? bytes pairs ((graphOf nodes root).scalarAt e.1) = some p ∧ p.2 = e.2 := by
  -- from the last pair on: either it has the key, or it may be left out
  induction pairs using List.reverseRecOn with
  | nil => cases he
  | append_singleton pairs p ih =>
    have hfront : ∀ q ∈ pairs, nodes.IsText q.1 := fun q hq => hpairs q (List.mem_append_left _ hq)
    have hlast : nodes.IsText p.1 := hpairs p (by simp)
    have hkey : keyAt? bytes p.1 = some ((graphOf nodes root).scalarAt p.1) := by
      obtain ⟨t, ht⟩ := hlast
      rw [scalarAt_of_scalar? ht]
      exact h.keyAt?_of_scalar? ht
    rw [setEntries_concat] at he
    rw [lastPair?, List.reverse_append, List.reverse_singleton, List.singleton_append,
      List.find?_cons, hkey]
    rcases mem_setEntry_of_distinct root (distinctKeys_setEntries fun q hq => (hfront q hq).isSome)
      (isText_of_mem_setEntries hfront) hlast he with ⟨heq, hvalue⟩ | ⟨hne, he⟩
    · exact ⟨p, by simp [heq], hvalue.symm⟩
    · obtain ⟨q, hq, hvalue⟩ := ih hfront he
      refine ⟨q, ?_, hvalue⟩
      rw [lastPair?] at hq
      simp [hne.symm, hq]

end DecodedTable

/-- What plain decoding gives for an object, if anything. -/
def shown (bytes : List UInt8) (depth ref : Nat) : Value := (plain? bytes depth ref).getD .null

theorem plain?_eq_shown {bytes : List UInt8} {depth ref : Nat}
    (h : (plain? bytes depth ref).isSome = true) :
    plain? bytes depth ref = some (shown bytes depth ref) := by
  obtain ⟨v, hv⟩ := Option.isSome_iff_exists.mp h
  rw [shown, hv, Option.getD_some]

namespace DecodedTable

variable {bytes : List UInt8} {src : Source} {nodes : Nodes} {root i depth : Nat}

theorem plain?_array (h : DecodedTable bytes src nodes) {items : List Nat}
    (hrecord : src.record? i = some (.array items))
    (hitems : ∀ j ∈ items, (plain? bytes depth j).isSome = true) :
    plain? bytes (depth + 1) i = some (.array (items.map (shown bytes depth))) := by
  rw [h.record] at hrecord
  rw [plain?, hrecord, Option.bind_some, Record.plain?,
    mapM_eq_some_map fun j hj => plain?_eq_shown (hitems j hj), Option.map_some]

theorem plain?_dict (h : DecodedTable bytes src nodes) (root : Nat) {keys values : List Nat}
    (hrecord : src.record? i = some (.dict keys values))
    (hkeys : ∀ p ∈ keys.zip values, (nodes.scalar? p.1).isSome = true)
    (hvalues : ∀ p ∈ keys.zip values, (plain? bytes depth p.2).isSome = true) :
    plain? bytes (depth + 1) i = some (.ofEntries ((keys.zip values).map
      fun p => ((graphOf nodes root).scalarAt p.1, shown bytes depth p.2))) := by
  rw [h.record] at hrecord
  have hentry : ∀ p ∈ keys.zip values, plainPair? bytes (plain? bytes depth) p =
      some ((graphOf nodes root).scalarAt p.1, shown bytes depth p.2) := by
    intro p hp
    obtain ⟨s, hs⟩ := Option.isSome_iff_exists.mp (hkeys p hp)
    rw [plainPair?, h.keyAt?_of_scalar? hs, scalarAt_of_scalar? hs, plain?_eq_shown (hvalues p hp)]
    rfl
  rw [plain?, hrecord, Option.bind_some, Record.plain?, mapM_eq_some_map hentry, Option.map_some]

/-- Everything that has been read can be decoded, the values included that others have replaced. -/
theorem isSome_plain? (h : DecodedTable bytes src nodes) (hi : nodes.Filled i) :
    (plain? bytes depth i).isSome = true := by
  induction depth generalizing i with
  | zero => rfl
  | succ depth ih =>
    obtain ⟨x, hx⟩ := hi
    cases h.decoded i x hx with
    | scalar hrecord =>
      rw [h.record] at hrecord
      rw [plain?, hrecord]
      rfl
    | array hrecord hitems =>
      rw [h.plain?_array hrecord fun j hj => ih (hitems j hj)]
      rfl
    | dict hrecord hkeys hvalues =>
      rw [h.plain?_dict 0 hrecord hkeys fun p hp => ih (hvalues p hp)]
      rfl

/-- All that can be reached has been read. -/
theorem filled_of_reaches (h : DecodedTable bytes src nodes)
    (hi : (graphOf nodes (trailer bytes).root).Reaches i) : nodes.Filled i := by
  induction hi with
  | root => exact h.root
  | @part i p _ hp ih =>
    obtain ⟨x, hx⟩ := ih
    rw [Graph.node_eq_of_getElem? (getElem?_graphOf hx)] at hp
    exact h.sound.parts i x hx p hp

end DecodedTable

end Binary

/-- The keys of all dictionaries that can be reached are text. -/
def Graph.HasTextKeys (g : Graph) : Prop :=
  ∀ (i : Nat) (es : List (Nat × Nat)), g.Reaches i → g.node i = .dict es →
    ∀ e ∈ es, (g.scalarAt e.1).text?.isSome = true

namespace Binary

namespace DecodedTable

variable {bytes : List UInt8} {src : Source} {nodes : Nodes} {g : Graph} {i depth : Nat}

/-- A dictionary of the graph, with the pairs that were set to make it. -/
theorem exists_pairs (h : DecodedTable bytes src nodes) (hg : g = graphOf nodes (trailer bytes).root)
    (htext : g.HasTextKeys) (hi : g.Reaches i) {es : List (Nat × Nat)} (hes : g.node i = .dict es) :
    ∃ keys values, src.record? i = some (.dict keys values) ∧
      (∀ p ∈ keys.zip values, nodes.IsText p.1) ∧ (∀ p ∈ keys.zip values, nodes.Filled p.2) ∧
      es = nodes.setEntries [] (keys.zip values) := by
  subst hg
  obtain ⟨x, hx⟩ := h.filled_of_reaches hi
  have hget : (graphOf nodes (trailer bytes).root).nodes[i]? = some x := getElem?_graphOf hx
  have hnode := Graph.node_eq_of_getElem? hget
  obtain rfl := hnode.symm.trans hes
  have hdistinct := (h.sound.keys i es hx).scalar
  -- a dictionary is decoded from nothing but the record of one
  generalize hy : Node.dict es = y at hx
  cases h.decoded i y hx with
  | scalar => cases hy
  | array => cases hy
  | @dict keys values hrecord hkeys hvalues =>
    obtain rfl := Node.dict.inj hy
    -- the keys that are left are texts, and so were those that they replaced
    have htexts : ∀ e ∈ nodes.setEntries [] (keys.zip values), nodes.IsText e.1 := by
      intro e he
      obtain ⟨s, hs⟩ := Option.isSome_iff_exists.mp (hdistinct e.1 (List.mem_map_of_mem he))
      have hkey := htext i _ hi hes e he
      rw [scalarAt_of_scalar? hs] at hkey
      exact ⟨s.keyText, by rw [hs, ← Scalar.eq_text_keyText hkey]⟩
    exact ⟨keys, values, hrecord, (isText_of_setEntries hkeys htexts).1, hvalues, rfl⟩

/-- Plain decoding gives the tree to which the graph unfolds. -/
theorem plain?_eq_unrolled (h : DecodedTable bytes src nodes)
    (hg : g = graphOf nodes (trailer bytes).root) (htext : g.HasTextKeys) (hi : g.Reaches i) :
    plain? bytes depth i = some (g.unrolled depth i) := by
  induction depth generalizing i with
  | zero => rfl
  | succ depth ih =>
    -- the parts are shown alike, one level less deep
    have hshown {j : Nat} (hj : g.Reaches j) : shown bytes depth j = g.unrolled depth j := by
      rw [shown, ih hj, Option.getD_some]
    obtain ⟨x, hx⟩ := h.filled_of_reaches (hg ▸ hi)
    have hnode : g.node i = x := by
      rw [hg]
      exact Graph.node_eq_of_getElem? (getElem?_graphOf hx)
    have hparts : ∀ p ∈ x.parts, g.Reaches p := fun p hp => hi.part (hnode ▸ hp)
    rw [Graph.unrolled, hnode]
    cases x with
    | scalar s =>
      have hrecord := h.sound.scalar i s hx
      rw [h.record] at hrecord
      rw [plain?, hrecord]
      rfl
    | array items =>
      generalize hy : Node.array items = y at hx
      cases h.decoded i y hx with
      | scalar => cases hy
      | dict => cases hy
      | array hrecord hitems =>
        obtain rfl := Node.array.inj hy
        rw [h.plain?_array hrecord fun j hj => h.isSome_plain? (hitems j hj)]
        exact congrArg (fun vs => some (Value.array vs))
          (List.map_congr_left fun j hj => hshown (hparts j hj))
    | dict es =>
      -- the table sets entries by the nodes of their keys, plain decoding by the texts
      obtain ⟨keys, values, hrecord, hkeys, hvalues, rfl⟩ := h.exists_pairs hg htext hi hnode
      rw [h.plain?_dict (trailer bytes).root hrecord (fun p hp => (hkeys p hp).isSome)
        fun p hp => h.isSome_plain? (hvalues p hp), ofEntries_shown _ _ hkeys, ← hg]
      refine congrArg (fun es => some (Value.dict es)) (List.map_congr_left fun e he => ?_)
      rw [hshown ((Node.forall_parts_dict.mp hparts) e he).2]

/-! ## Sharing -/

theorem recordAt?_of_array (h : DecodedTable bytes src nodes)
    (hg : g = graphOf nodes (trailer bytes).root) (hi : g.Reaches i) {items : List Nat}
    (hnode : g.node i = .array items) : recordAt? bytes i = some (.array items) := by
  subst hg
  obtain ⟨x, hx⟩ := h.filled_of_reaches hi
  rw [Graph.node_eq_of_getElem? (getElem?_graphOf hx)] at hnode
  cases h.decoded i x hx with
  | scalar => cases hnode
  | dict => cases hnode
  | array hrecord => rw [← Node.array.inj hnode, ← h.record, hrecord]

/-- Where an object is referred to stands the node with the number of the object. -/
theorem eq_of_shows (h : DecodedTable bytes src nodes)
    (hg : g = graphOf nodes (trailer bytes).root) (htext : g.HasTextKeys) {ref : Nat}
    (hshows : Shows bytes g i ref) : g.Reaches i ∧ i = ref := by
  induction hshows with
  | root =>
    refine ⟨.root, ?_⟩
    rw [hg]
    rfl
  | @item i ref items refs p _ hnode hrecord hp ih =>
    obtain ⟨hi, rfl⟩ := ih
    -- there is one record for an object, so the references are the items of the node
    obtain rfl := Record.array.inj
      (Option.some.inj (hrecord.symm.trans (h.recordAt?_of_array hg hi hnode)))
    rw [List.zip, List.zipWith_self] at hp
    obtain ⟨j, hj, rfl⟩ := List.mem_map.mp hp
    exact ⟨hi.part (hnode ▸ hj), rfl⟩
  | @value i ref entries keys values e p _ hnode hrecord he hp ih =>
    obtain ⟨hi, rfl⟩ := ih
    obtain ⟨keys', values', hrecord', hkeys, -, rfl⟩ := h.exists_pairs hg htext hi hnode
    rw [h.record] at hrecord'
    obtain ⟨rfl, rfl⟩ := Record.dict.inj (Option.some.inj (hrecord.symm.trans hrecord'))
    -- of several pairs with one key, the last one is the entry
    obtain ⟨q, hq, hvalue⟩ := h.exists_lastPair? (trailer bytes).root hkeys he
    rw [← hg] at hq
    obtain rfl := Option.some.inj (hp.symm.trans hq)
    exact ⟨hi.part (hnode ▸ (List.mem_flatMap.mpr ⟨e, he, by simp⟩)), hvalue.symm⟩

/-- Every container that can be reached stands where there is a reference to its object. -/
theorem shows_of_reaches (h : DecodedTable bytes src nodes)
    (hg : g = graphOf nodes (trailer bytes).root) (htext : g.HasTextKeys) (hi : g.Reaches i)
    (hcontainer : ∀ s, g.node i ≠ .scalar s) : Shows bytes g i i := by
  induction hi with
  | root =>
    have hroot : g.root = (trailer bytes).root := by rw [hg]; rfl
    have hshows : Shows bytes g g.root (trailer bytes).root := .root
    rwa [← hroot] at hshows
  | @part i p hi hp ih =>
    cases hnode : g.node i with
    | scalar s =>
      rw [hnode] at hp
      cases hp
    | array items =>
      rw [hnode] at hp
      have hmem : (p, p) ∈ items.zip items := by
        rw [List.zip, List.zipWith_self]
        exact List.mem_map_of_mem hp
      exact .item (ih (by simp [hnode])) hnode (h.recordAt?_of_array hg hi hnode) hmem
    | dict es =>
      rw [hnode] at hp
      obtain ⟨keys, values, hrecord, hkeys, -, rfl⟩ := h.exists_pairs hg htext hi hnode
      rw [h.record] at hrecord
      obtain ⟨e, he, hpe⟩ := List.mem_flatMap.mp hp
      rcases List.mem_pair.mp hpe with rfl | rfl
      -- a key is no container
      · obtain ⟨t, ht⟩ := isText_of_mem_setEntries hkeys e he
        refine absurd ?_ (hcontainer (.text t))
        rw [hg]
        exact Graph.node_eq_of_getElem? (getElem?_graphOf_of_scalar? ht)
      · obtain ⟨q, hq, hvalue⟩ := h.exists_lastPair? (trailer bytes).root hkeys he
        rw [← hg] at hq
        have hshows := Shows.value (ih (by simp [hnode])) hnode hrecord he hq
        rwa [hvalue] at hshows

end DecodedTable

end Binary

namespace Encoding

/-- Reading with a table gives what plain decoding gives.  Of a list that was read, with text as
    keys and with whatever sharing and cycles, the graph unfolds at every depth to the tree that is
    decoded straight from the bytes.  Two places hold one node exactly if they refer to one object;
    all containers are such nodes, so there are at most as many as the trailer counts objects. -/
theorem binary_read_plain {payload : List UInt8} {g : Graph}
    (hread : binary.read payload = .ok ⟨.only .binary, some g⟩) (htext : g.HasTextKeys) :
    (∀ depth, Binary.plain? payload depth (Binary.trailer payload).root =
      some (g.unrolled depth g.root)) ∧
    (∀ i j ref ref', Binary.Shows payload g i ref → Binary.Shows payload g j ref' →
      (i = j ↔ ref = ref')) ∧
    (∀ i, g.Reaches i → (∀ s, g.node i ≠ .scalar s) → ∃ ref, Binary.Shows payload g i ref) ∧
    Set.encard {i | g.Reaches i ∧ ∀ s, g.node i ≠ .scalar s} ≤
      (Binary.trailer payload).objectCount := by
  obtain ⟨src, nodes, hg, htable⟩ :=
    Binary.exists_decodedTable_of_read (read_of_binary_read hread)
  have hroot : g.root = (Binary.trailer payload).root := by rw [hg]; rfl
  refine ⟨?_, ?_, ?_, ?_⟩
  · intro depth
    rw [← hroot]
    exact htable.plain?_eq_unrolled hg htext .root
  · intro i j ref ref' hi hj
    rw [(htable.eq_of_shows hg htext hi).2, (htable.eq_of_shows hg htext hj).2]
  · exact fun i hi hcontainer => ⟨i, htable.shows_of_reaches hg htext hi hcontainer⟩
  -- nodes are numbered like objects
  · have hsubset : {i | g.Reaches i ∧ ∀ s, g.node i ≠ .scalar s} ⊆
        ((Finset.range (Binary.trailer payload).objectCount : Finset Nat) : Set Nat) := by
      intro i hi
      obtain ⟨x, hx⟩ := htable.filled_of_reaches (hg ▸ hi.1)
      rw [Finset.coe_range, Set.mem_Iio, ← htable.size]
      exact (Array.getElem?_eq_some_iff.mp hx).1
    refine (Set.encard_le_encard hsubset).trans ?_
    rw [Set.encard_coe_eq_coe_finsetCard, Finset.card_range]

/-- A list that holds itself and, twice, a dictionary with two values under one key. -/
theorem binary_read_plain_cyclic :
    ∃ payload g, binary.read payload = .ok ⟨.only .binary, some g⟩ ∧
      g.nodes = #[.scalar (.text (Text.ofString "a")), .dict [(0, 2)], .array [2, 1, 1]] ∧
      (∀ depth, Binary.plain? payload depth 2 = some (g.unrolled depth 2)) ∧
      Set.encard {i | g.Reaches i ∧ ∀ s, g.node i ≠ .scalar s} ≤ 3 := by
  let payload := Binary.header ++
    [0x51, 0x61, 0xD2, 0, 0, 0, 2, 0xA3, 2, 1, 1, 8, 10, 15] ++
    [0, 0, 0, 0, 0, 0, 1, 1, 0, 0, 0, 0, 0, 0, 0, 3, 0, 0, 0, 0, 0, 0, 0, 2,
      0, 0, 0, 0, 0, 0, 0, 19]
  let g : Graph := ⟨#[.scalar (.text (Text.ofString "a")), .dict [(0, 2)], .array [2, 1, 1]], 2⟩
  have hread : Binary.read payload = .ok g := by decide +kernel
  have hdocument : binary.read payload = .ok ⟨.only .binary, some g⟩ :=
    binary_read_of_ok (by decide) hread
  have htext : g.HasTextKeys := by
    intro i es _ hes e he
    have hmem := Array.mem_of_getElem? (Graph.getElem?_of_node hes (by simp))
    obtain rfl : es = [(0, 2)] := by simpa [g] using hmem
    obtain rfl := List.mem_singleton.mp he
    rfl
  obtain ⟨hplain, -, -, hcount⟩ := binary_read_plain hdocument htext
  have htrailer : Binary.trailer payload = ⟨1, 1, 3, 2, 19⟩ := by decide +kernel
  rw [htrailer] at hplain hcount
  exact ⟨payload, g, hdocument, rfl, hplain, hcount⟩

end Encoding

end PropertyList
