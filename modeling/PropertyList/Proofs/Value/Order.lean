/-
  PropertyList.Proofs.Value.Order

  Trees that differ only in the order of dictionary entries.  Sorted, they are one
  tree, in which the keys of every dictionary are strictly ascending.
-/
import PropertyList.Proofs.Value.Scalars

namespace PropertyList

/-- Keys that are text, each of them smaller than those behind it. -/
structure AscendingKeys (keys : List Scalar) : Prop where
  text : ∀ k ∈ keys, k.text?.isSome = true
  ascending : keys.Pairwise fun a b => a.keyText.less b.keyText = true

/-- Distinct keys that are text have distinct texts. -/
theorem TextKeys.nodup_keyText {Q : Text → Prop} {keys : List Scalar} (h : TextKeys Q keys) :
    (keys.map Scalar.keyText).Nodup := by
  rw [List.Nodup, List.pairwise_map]
  refine h.nodup.imp_of_mem fun {a b} ha hb hab heq => ?_
  obtain ⟨s, rfl, -⟩ := h.text a ha
  obtain ⟨t, rfl, -⟩ := h.text b hb
  exact hab (congrArg Scalar.text heq)

namespace Value

variable {v w : Value}

/-- Trees that are the same but for the order of entries, at any depth: the entries of one
    dictionary, in some order, are those of the other one, with values of which the same holds. -/
inductive Reordered : Value → Value → Prop where
  | scalar (s : Scalar) : Reordered (.scalar s) (.scalar s)
  | array {vs ws : List Value} (hlength : vs.length = ws.length)
      (hitems : ∀ p ∈ vs.zip ws, Reordered p.1 p.2) : Reordered (.array vs) (.array ws)
  | dict {es es' fs : List (Scalar × Value)} (hperm : es.Perm es')
      (hkeys : es'.map (·.1) = fs.map (·.1)) (hvalues : ∀ p ∈ es'.zip fs, Reordered p.1.2 p.2.2) :
      Reordered (.dict es) (.dict fs)

/-- Entries with the same keys whose values are related one by one. -/
theorem forall₂_of_keys {R : Value → Value → Prop} {es fs : List (Scalar × Value)}
    (hkeys : es.map (·.1) = fs.map (·.1)) (hvalues : ∀ p ∈ es.zip fs, R p.1.2 p.2.2) :
    List.Forall₂ (fun e f => e.1 = f.1 ∧ R e.2 f.2) es fs := by
  have hmatch : List.Forall₂ (fun e f : Scalar × Value => e.1 = f.1) es fs := by
    rw [← List.forall₂_eq_eq_eq, List.forall₂_map_left_iff, List.forall₂_map_right_iff] at hkeys
    exact hkeys
  rw [List.forall₂_iff_zip] at hmatch ⊢
  exact ⟨hmatch.1, fun hef => ⟨hmatch.2 hef, hvalues _ hef⟩⟩

namespace Reordered

theorem isTextKeyed (h : v.Reordered w) (hv : v.IsTextKeyed) : w.IsTextKeyed := by
  induction h with
  | scalar => exact hv
  | array hlength _ ih =>
    refine .array fun w hw => ?_
    have hitems := List.forall₂_iff_zip.mpr ⟨hlength, fun hvw => ih _ hvw⟩
    obtain ⟨v, hmem, himp⟩ := exists_of_forall₂_left hitems.flip hw
    exact himp (over_array_iff.mp hv v hmem)
  | dict hperm hkeys _ ih =>
    obtain ⟨htext, hentries⟩ := over_dict_iff.mp hv
    refine .dict (hkeys ▸ htext.perm (hperm.map _)) fun f hf => ?_
    obtain ⟨e, hmem, -, himp⟩ := exists_of_forall₂_left
      (forall₂_of_keys (R := fun v w => v.IsTextKeyed → w.IsTextKeyed) hkeys ih).flip hf
    exact himp (hentries e (hperm.mem_iff.mpr hmem))

/-- Sorting the entries leaves no difference. -/
theorem sorted_eq (h : v.Reordered w) (hv : v.IsTextKeyed) : v.sorted = w.sorted := by
  induction h with
  | scalar => rfl
  | @array vs ws hlength _ ih =>
    have hitems := List.forall₂_iff_zip.mpr ⟨hlength, fun hvw => ih _ hvw⟩
    rw [sorted_array, sorted_array]
    refine congrArg Value.array (map_eq_map_of_forall₂ (forall₂_imp_of_mem hitems ?_) fun _ _ => id)
    exact fun v w hmem _ himp => himp (over_array_iff.mp hv v hmem)
  | @dict es es' fs hperm hkeys _ ih =>
    obtain ⟨htext, hentries⟩ := over_dict_iff.mp hv
    -- the entries of the one dictionary, in their new order, become those of the other one
    have hsame : (es'.map fun e => (e.1, e.2.sorted)) = fs.map fun e => (e.1, e.2.sorted) := by
      have hfs := forall₂_of_keys (R := fun v w => v.IsTextKeyed → v.sorted = w.sorted) hkeys ih
      refine map_eq_map_of_forall₂ (forall₂_imp_of_mem hfs ?_) fun _ _ => id
      rintro e f he - ⟨hkey, himp⟩
      exact Prod.ext hkey (himp (hentries e (hperm.mem_iff.mpr he)))
    have hnodup : ((es.map fun e => (e.1, e.2.sorted)).map fun e => e.1.keyText).Nodup := by
      have hnodup := htext.nodup_keyText
      rw [List.map_map] at hnodup ⊢
      exact hnodup
    rw [sorted_dict, sorted_dict, ← hsame]
    exact congrArg Value.dict (Text.sortBy_eq_of_perm hnodup (hperm.map _))

end Reordered

/-- A tree in which every dictionary lists its keys in strictly ascending order. -/
abbrev IsAscending (v : Value) : Prop := v.Over (fun _ => True) AscendingKeys

/-- Sorting puts the keys of every dictionary in strictly ascending order. -/
theorem isAscending_sorted (hv : v.IsTextKeyed) : v.sorted.IsAscending := by
  induction hv with
  | scalar =>
    rw [sorted_scalar]
    exact .scalar trivial
  | @array items _ ih =>
    rw [sorted_array]
    exact .array (List.forall_mem_map.mpr ih)
  | @dict entries htext _ ih =>
    have hperm := keys_sorted_perm entries
    have hnodup := (hperm.map Scalar.keyText).nodup_iff.mpr htext.nodup_keyText
    rw [sorted_dict]
    refine .dict ⟨fun k hk => htext.isText (hperm.mem_iff.mp hk), ?_⟩ fun e he => ?_
    · rw [List.pairwise_map]
      refine Text.pairwise_less_sortBy ?_
      have hnodup' := htext.nodup_keyText
      rw [List.map_map] at hnodup' ⊢
      exact hnodup'
    · obtain ⟨f, hf, rfl⟩ := List.mem_map.mp ((sortEntries_perm _).mem_iff.mp he)
      exact ih f hf

end Value

end PropertyList
