/-
  PropertyList.Proofs.Text.Order

  The order of texts by code point is total, and two texts of which neither is
  smaller are one text.  `sortBy` puts a list in the order of the texts that its
  items carry; where these texts are distinct the result is strictly ascending,
  and it depends only on which items there are.  Keys that are all text are
  sorted in this order.
-/
import PropertyList.Scalar
import PropertyList.Proofs.Text.Coding
import Mathlib.Data.List.Sort

namespace PropertyList

namespace Text

/-! ## The order -/

/-- The order of texts is the lexicographic order of their code point numbers. -/
theorem less_eq_lt (s t : Text) :
    s.less t = decide (s.map CodePoint.toNat < t.map CodePoint.toNat) := by
  induction s generalizing t with
  | nil => cases t <;> simp [less]
  | cons a s ih =>
    cases t with
    | nil => simp [less]
    | cons b t =>
      simp only [less, List.map_cons, List.cons_lt_cons_iff, ih]
      grind

theorem less_trans {s t u : Text} (hst : s.less t = true) (htu : t.less u = true) :
    s.less u = true := by
  simp only [less_eq_lt, decide_eq_true_eq] at *
  exact List.lt_trans hst htu

theorem less_asymm {s t : Text} (h : s.less t = true) : t.less s = false := by
  by_contra hts
  have hss := less_trans h (Bool.eq_true_of_not_eq_false hts)
  rw [less_irrefl] at hss
  cases hss

/-- Distinct texts are ordered one way or the other. -/
theorem eq_of_not_less {s t : Text} (hst : s.less t = false) (hts : t.less s = false) : s = t := by
  simp only [less_eq_lt, decide_eq_false_iff_not] at *
  have h := List.le_antisymm hts hst
  exact List.map_injective_iff.mpr (fun a b => CodePoint.toNat_inj) h

/-- That `t` does not come before `s`, as the order that `mergeSort` asks for. -/
def atMost (s t : Text) : Bool := !t.less s

theorem atMost_trans {s t u : Text} (hst : s.atMost t = true) (htu : t.atMost u = true) :
    s.atMost u = true := by
  simp only [atMost, less_eq_lt, Bool.not_eq_true', decide_eq_false_iff_not] at *
  exact List.le_trans hst htu

theorem atMost_total (s t : Text) : (s.atMost t || t.atMost s) = true := by
  simp only [atMost, less_eq_lt, Bool.or_eq_true, Bool.not_eq_true', decide_eq_false_iff_not]
  exact List.le_total _ _

/-! ## Sorting by text -/

section SortBy

variable {α β : Type}

/-- A list in the order of the texts of its items. -/
def sortBy (key : α → Text) (l : List α) : List α :=
  l.mergeSort fun a b => (key a).atMost (key b)

theorem sortBy_perm (key : α → Text) (l : List α) : (sortBy key l).Perm l :=
  List.mergeSort_perm l _

theorem mem_sortBy {key : α → Text} {l : List α} {a : α} : a ∈ sortBy key l ↔ a ∈ l :=
  (sortBy_perm key l).mem_iff

theorem pairwise_sortBy (key : α → Text) (l : List α) :
    (sortBy key l).Pairwise fun a b => (key a).atMost (key b) = true := by
  apply List.pairwise_mergeSort
  · exact fun a b c => atMost_trans
  · exact fun a b => atMost_total (key a) (key b)

theorem sortBy_of_pairwise {key : α → Text} {l : List α}
    (h : l.Pairwise fun a b => (key a).atMost (key b) = true) : sortBy key l = l :=
  List.mergeSort_of_pairwise h

theorem sortBy_sortBy (key : α → Text) (l : List α) : sortBy key (sortBy key l) = sortBy key l :=
  sortBy_of_pairwise (pairwise_sortBy key l)

/-- What the items are mapped to is sorted as they are, if it carries the same texts. -/
theorem sortBy_map {key : β → Text} {key' : α → Text} {f : α → β} {l : List α}
    (h : ∀ a ∈ l, key (f a) = key' a) : sortBy key (l.map f) = (sortBy key' l).map f := by
  refine (List.map_mergeSort fun a ha b hb => ?_).symm
  rw [h a ha, h b hb]

/-- Lists that match position by position, and carry the same texts, still match when sorted. -/
theorem forall₂_sortBy {R : α → β → Prop} {key : α → Text} {key' : β → Text} {as : List α}
    {bs : List β} (h : List.Forall₂ R as bs) (hkey : ∀ a b, R a b → key a = key' b) :
    List.Forall₂ R (sortBy key as) (sortBy key' bs) := by
  have hzip : ∀ q ∈ as.zip bs, R q.1 q.2 := fun q hq => (List.forall₂_iff_zip.mp h).2 hq
  have has : (as.zip bs).map Prod.fst = as := List.map_fst_zip h.length_eq.le
  have hbs : (as.zip bs).map Prod.snd = bs := List.map_snd_zip h.length_eq.ge
  have hsort : sortBy key' ((as.zip bs).map Prod.snd) =
      (sortBy (fun q => key q.1) (as.zip bs)).map Prod.snd :=
    sortBy_map fun q hq => (hkey q.1 q.2 (hzip q hq)).symm
  have hsort' : sortBy key ((as.zip bs).map Prod.fst) =
      (sortBy (fun q => key q.1) (as.zip bs)).map Prod.fst := sortBy_map fun q _ => rfl
  rw [has] at hsort'
  rw [hbs] at hsort
  rw [hsort, hsort', List.forall₂_map_left_iff, List.forall₂_map_right_iff, List.forall₂_same]
  exact fun q hq => hzip q (mem_sortBy.mp hq)

/-- With distinct texts the order is strict. -/
theorem pairwise_less_sortBy {key : α → Text} {l : List α} (h : (l.map key).Nodup) :
    (sortBy key l).Pairwise fun a b => (key a).less (key b) = true := by
  have hnodup : ((sortBy key l).map key).Nodup := ((sortBy_perm key l).map key).nodup_iff.mpr h
  refine ((pairwise_sortBy key l).and (List.pairwise_map.mp hnodup)).imp fun hab => ?_
  obtain ⟨hle, hne⟩ := hab
  by_contra hless
  simp only [atMost, Bool.not_eq_true'] at hle
  exact hne (eq_of_not_less (Bool.eq_false_of_not_eq_true hless) hle)

/-- With distinct texts the result depends only on which items there are. -/
theorem sortBy_eq_of_perm {key : α → Text} {l m : List α} (h : (l.map key).Nodup)
    (hperm : l.Perm m) : sortBy key l = sortBy key m := by
  have hm : (m.map key).Nodup := (hperm.map key).nodup_iff.mp h
  refine List.Perm.eq_of_pairwise (fun a b _ _ hab hba => ?_) (pairwise_less_sortBy h)
    (pairwise_less_sortBy hm) (((sortBy_perm key l).trans hperm).trans (sortBy_perm key m).symm)
  rw [less_asymm hab] at hba
  cases hba

end SortBy

end Text

/-! ## Keys that are text -/

namespace Scalar

/-- The text of a key; a key that is none counts as empty text. -/
def keyText (k : Scalar) : Text := k.text?.getD []

@[simp] theorem keyText_text (t : Text) : (text t).keyText = t := rfl

theorem eq_text_keyText {k : Scalar} (h : k.text?.isSome = true) : k = .text k.keyText := by
  cases k <;> simp [text?, keyText] at h ⊢

theorem lessKey_of_text {a b : Scalar} (ha : a.text?.isSome = true) (hb : b.text?.isSome = true) :
    a.lessKey b = a.keyText.less b.keyText := by
  rw [eq_text_keyText ha, eq_text_keyText hb]
  rfl

theorem orderable_of_text {keys : List Scalar} (h : ∀ k ∈ keys, k.text?.isSome = true) :
    orderable keys = true := by
  have htextual {k : Scalar} (hk : k ∈ keys) : k.keyOrder? = some .textual := by
    rw [eq_text_keyText (h k hk)]
    rfl
  match keys with
  | [] => rfl
  | [_] => rfl
  | k :: l :: rest =>
    simp only [orderable, htextual List.mem_cons_self, List.all_eq_true, decide_eq_true_eq]
    exact fun m hm => htextual (List.mem_cons_of_mem k hm)

/-- Entries whose keys are text are sorted by these texts. -/
theorem sortByKey?_of_text {α : Type} {key : α → Scalar} {entries : List α}
    (h : ∀ e ∈ entries, (key e).text?.isSome = true) :
    sortByKey? key entries = some (Text.sortBy (fun e => (key e).keyText) entries) := by
  have hkeys : ∀ k ∈ entries.map key, k.text?.isSome = true := by
    intro k hk
    obtain ⟨e, he, rfl⟩ := List.mem_map.mp hk
    exact h e he
  rw [sortByKey?, if_pos (orderable_of_text hkeys)]
  have hsort := List.map_mergeSort (f := id) (l := entries)
    (r := fun a b => !lessKey (key b) (key a))
    (s := fun a b => (key a).keyText.atMost (key b).keyText)
    (fun a ha b hb => by rw [lessKey_of_text (h b hb) (h a ha)]; rfl)
  rw [List.map_id, List.map_id] at hsort
  rw [hsort, Text.sortBy]

/-- Putting entries in order looks at nothing but their keys. -/
theorem sortByKey?_map_snd {α β : Type} (f : α → β) (entries : List (Scalar × α)) :
    sortByKey? (fun e : Scalar × β => e.1) (entries.map fun e => (e.1, f e.2)) =
      (sortByKey? (fun e : Scalar × α => e.1) entries).map (List.map fun e => (e.1, f e.2)) := by
  have hkeys : (entries.map fun e => (e.1, f e.2)).map (fun e : Scalar × β => e.1) =
      entries.map fun e => e.1 := by
    rw [List.map_map]
    rfl
  have hsort := List.map_mergeSort (f := fun e : Scalar × α => (e.1, f e.2)) (l := entries)
    (r := fun a b => !lessKey b.1 a.1) (s := fun a b => !lessKey b.1 a.1) fun _ _ _ _ => rfl
  rw [sortByKey?, sortByKey?, hkeys]
  split
  · exact congrArg some hsort.symm
  · rfl

/-- Putting entries in order keeps all of them. -/
theorem perm_of_sortByKey? {α : Type} {key : α → Scalar} {entries listed : List α}
    (h : sortByKey? key entries = some listed) : listed.Perm entries := by
  rw [sortByKey?] at h
  split at h
  · obtain rfl := Option.some.inj h
    exact List.mergeSort_perm _ _
  · cases h

end Scalar

end PropertyList
