/-
  PropertyList.Proofs.Value.Scalars

  Trees whose scalars are changed and whose keys are left alone.  This commutes with
  listing the entries in order, and what is said of each scalar carries over to the
  tree.
-/
import PropertyList.Proofs.Value

namespace PropertyList

namespace Value

/-- The tree with `f` applied to its scalars, other than those that are keys. -/
def mapScalars (f : Scalar → Scalar) (v : Value) : Value := transform f id v

@[simp] theorem mapScalars_scalar (f : Scalar → Scalar) (s : Scalar) :
    (scalar s).mapScalars f = .scalar (f s) := transform_scalar f id s

@[simp] theorem mapScalars_array (f : Scalar → Scalar) (items : List Value) :
    (array items).mapScalars f = .array (items.map (mapScalars f)) := transform_array f id items

@[simp] theorem mapScalars_dict (f : Scalar → Scalar) (entries : List (Scalar × Value)) :
    (dict entries).mapScalars f = .dict (entries.map fun e => (e.1, e.2.mapScalars f)) :=
  transform_dict f id entries

@[simp] theorem mapScalars_back (f : Scalar → Scalar) (k : Nat) :
    (back k).mapScalars f = .back k := transform_back f id k

/-- A function of entries that moves them as they are, whatever their values. -/
def Moves (d : List (Scalar × Value) → List (Scalar × Value)) : Prop :=
  ∀ (m : Value → Value) (es : List (Scalar × Value)),
    d (es.map fun e => (e.1, m e.2)) = (d es).map fun e => (e.1, m e.2)

section

variable {f g : Scalar → Scalar} {d : List (Scalar × Value) → List (Scalar × Value)}

/-- Scalars can be changed before a transformation. -/
theorem transform_mapScalars (v : Value) :
    (v.mapScalars f).transform g d = v.transform (g ∘ f) d := by
  rw [mapScalars]
  induction v using Value.induct with
  | scalar s => simp only [transform_scalar, Function.comp_apply]
  | array items ih =>
    rw [transform_array, transform_array, transform_array, List.map_map]
    exact congrArg array (List.map_congr_left ih)
  | dict entries ih =>
    rw [transform_dict, transform_dict, transform_dict, id_eq, List.map_map]
    refine congrArg dict (congrArg d (List.map_congr_left fun e he => ?_))
    exact congrArg (Prod.mk e.1) (ih e he)
  | back k => simp only [transform_back]

/-- Scalars can be changed after a transformation. -/
theorem mapScalars_transform (hd : Moves d) (v : Value) :
    (v.transform g d).mapScalars f = v.transform (f ∘ g) d := by
  rw [mapScalars]
  induction v using Value.induct with
  | scalar s => simp only [transform_scalar, Function.comp_apply]
  | array items ih =>
    rw [transform_array, transform_array, transform_array, List.map_map]
    exact congrArg array (List.map_congr_left ih)
  | dict entries ih =>
    rw [transform_dict, transform_dict, transform_dict, id_eq, ← hd, List.map_map]
    refine congrArg dict (congrArg d (List.map_congr_left fun e he => ?_))
    exact congrArg (Prod.mk e.1) (ih e he)
  | back k => simp only [transform_back]

end

@[simp] theorem mapScalars_id (v : Value) : v.mapScalars id = v := by
  induction v using Value.induct with
  | scalar s => rw [mapScalars_scalar, id_eq]
  | array items ih => rw [mapScalars_array, List.map_congr_left ih, List.map_id']
  | dict entries ih =>
    have heq : (entries.map fun e => (e.1, e.2.mapScalars id)) = entries.map fun e => e :=
      List.map_congr_left fun e he => by rw [ih e he]
    rw [mapScalars_dict, heq, List.map_id']
  | back k => rw [mapScalars_back]

/-- Changing scalars twice. -/
theorem mapScalars_mapScalars (f g : Scalar → Scalar) (v : Value) :
    (v.mapScalars g).mapScalars f = v.mapScalars (f ∘ g) := transform_mapScalars v

theorem moves_sortEntries : Moves sortEntries := fun _ _ => Text.sortBy_map fun _ _ => rfl

/-- Changing scalars leaves the order of entries as it is. -/
theorem arranged_mapScalars (f : Scalar → Scalar) (v : Value) (sortKeys : Bool) :
    (v.mapScalars f).arranged sortKeys = (v.arranged sortKeys).mapScalars f := by
  cases sortKeys with
  | false => rfl
  | true =>
    rw [arranged_true, arranged_true, sorted, sorted, transform_mapScalars,
      mapScalars_transform moves_sortEntries]
    rfl

/-- What is the same as a tree is also the same as the tree before its scalars were changed, if
    this is so for each scalar. -/
theorem same_of_mapScalars {f : Scalar → Scalar}
    (hf : ∀ s t : Scalar, s.Same (f t) → s.Same t) {v w : Value} (h : w.Same (v.mapScalars f)) :
    w.Same v := by
  rw [mapScalars] at h
  induction v using Value.induct generalizing w with
  | scalar t =>
    rw [transform_scalar] at h
    cases w with
    | scalar s =>
      rw [Same] at h ⊢
      exact hf s t h
    | _ => simp [Same] at h
  | array items ih =>
    rw [transform_array] at h
    cases w with
    | array ws =>
      rw [Same, sameItems_iff] at h ⊢
      rw [List.forall₂_map_right_iff] at h
      exact forall₂_imp_of_mem h fun w v _ hv hwv => ih v hv hwv
    | _ => simp [Same] at h
  | dict entries ih =>
    rw [transform_dict, id_eq] at h
    cases w with
    | dict fs =>
      rw [Same, sameEntries_iff] at h ⊢
      rw [List.forall₂_map_right_iff] at h
      -- keys are left as they are, so only the values matter
      exact forall₂_imp_of_mem h fun a e _ he hae => ⟨hae.1, ih e he hae.2⟩
    | _ => simp [Same] at h
  | back k =>
    rw [transform_back] at h
    exact h

/-- Changing scalars to such that count as the same gives the same tree. -/
theorem same_mapScalars {f : Scalar → Scalar} (hf : ∀ s : Scalar, (f s).Same s) (v : Value) :
    (v.mapScalars f).Same v := by
  induction v using Value.induct with
  | scalar s =>
    rw [mapScalars_scalar, Same]
    exact hf s
  | array items ih =>
    rw [mapScalars_array, Same, sameItems_iff, List.forall₂_map_left_iff, List.forall₂_same]
    exact ih
  | dict entries ih =>
    rw [mapScalars_dict, Same, sameEntries_iff, List.forall₂_map_left_iff, List.forall₂_same]
    exact fun e he => ⟨rfl, ih e he⟩
  | back k => exact same_refl _

section

variable {P P' : Scalar → Prop} {K : List Scalar → Prop} {v : Value}

/-- A tree whose scalars stay as they are stays as it is. -/
theorem Over.mapScalars_eq {f : Scalar → Scalar} (h : v.Over (fun s => f s = s) K) :
    v.mapScalars f = v := by
  induction h with
  | scalar hs => rw [mapScalars_scalar, hs]
  | @array items _ ih =>
    rw [mapScalars_array, List.map_congr_left ih, List.map_id']
  | @dict entries _ _ ih =>
    have heq : (entries.map fun e => (e.1, e.2.mapScalars f)) = entries.map fun e => e :=
      List.map_congr_left fun e he => by rw [ih e he]
    rw [mapScalars_dict, heq, List.map_id']

theorem Over.mapScalars {f : Scalar → Scalar} (h : v.Over P K) (hf : ∀ s, P s → P' (f s)) :
    (v.mapScalars f).Over P' K :=
  h.transform f id hf fun _ hkeys => ⟨hkeys, fun e he => ⟨e, he, rfl⟩⟩

/-- What is said of the changed scalars is said of the scalars before. -/
theorem over_mapScalars_iff {f : Scalar → Scalar} :
    (v.mapScalars f).Over P K ↔ v.Over (fun s => P (f s)) K := by
  refine ⟨fun h => ?_, fun h => h.mapScalars fun _ => id⟩
  induction v using Value.induct with
  | scalar s =>
    rw [mapScalars_scalar] at h
    exact .scalar (over_scalar_iff.mp h)
  | array items ih =>
    rw [mapScalars_array] at h
    exact .array fun w hw => ih w hw (over_array_iff.mp h _ (List.mem_map_of_mem hw))
  | dict entries ih =>
    rw [mapScalars_dict] at h
    obtain ⟨hkeys, hvalues⟩ := over_dict_iff.mp h
    rw [List.map_map] at hkeys
    exact .dict hkeys fun e he => ih e he (hvalues _ (List.mem_map_of_mem he))
  | back k =>
    rw [mapScalars_back] at h
    exact absurd h not_over_back

/-- A transformation that gives entries no new values makes a tree no deeper. -/
theorem depth_transform_le {f : Scalar → Scalar}
    {d : List (Scalar × Value) → List (Scalar × Value)} (h : v.Over P K)
    (hd : ∀ es : List (Scalar × Value), K (es.map (·.1)) → ∀ e ∈ d es, ∃ e' ∈ es, e.2 = e'.2) :
    (v.transform f d).depth ≤ v.depth := by
  induction h with
  | scalar hs => rw [transform_scalar, depth, depth]
  | @array items _ ih =>
    obtain ⟨n, hn, hitems⟩ := exists_depth_eq_succ_of_array (Nat.le_refl (array items).depth)
    rw [hn, transform_array, depth_array_le_iff]
    intro w hw
    obtain ⟨v, hv, rfl⟩ := List.mem_map.mp hw
    exact Nat.le_trans (ih v hv) (hitems v hv)
  | @dict entries hkeys _ ih =>
    obtain ⟨n, hn, hentries⟩ := exists_depth_eq_succ_of_dict (Nat.le_refl (dict entries).depth)
    rw [hn, transform_dict, depth_dict_le_iff]
    intro e he
    obtain ⟨e', he', heq⟩ := hd _ (by rw [List.map_map]; exact hkeys) e he
    obtain ⟨e₀, he₀, rfl⟩ := List.mem_map.mp he'
    rw [heq]
    exact Nat.le_trans (ih e₀ he₀) (hentries e₀ he₀)

theorem Over.depth_mapScalars_le (h : v.Over P K) (f : Scalar → Scalar) :
    (v.mapScalars f).depth ≤ v.depth :=
  depth_transform_le h fun _ _ e he => ⟨e, he, rfl⟩

end

end Value

end PropertyList
