/-
  PropertyList.Proofs.Expressible

  Which trees an encoding can express, said without looking at its writer, and what
  it means that a writer decides this: it gives bytes if they can be expressed, and
  otherwise a fault that is accounted for.
-/
import PropertyList.Codec
import PropertyList.Proofs.Value

namespace PropertyList

/-! ## Trees and what they mention -/

/-- A tree that does not lead back into itself. -/
abbrev Value.IsTree (v : Value) : Prop := v.Over (fun _ => True) fun _ => True

/-- A scalar that stands somewhere in a tree, as a value or as a key. -/
inductive Value.Mentions : Value → Scalar → Prop where
  | scalar (s : Scalar) : Mentions (.scalar s) s
  | item {items : List Value} {v : Value} {s : Scalar} (hv : v ∈ items) (h : Mentions v s) :
      Mentions (.array items) s
  | key {entries : List (Scalar × Value)} {e : Scalar × Value} (he : e ∈ entries) :
      Mentions (.dict entries) e.1
  | value {entries : List (Scalar × Value)} {e : Scalar × Value} {s : Scalar} (he : e ∈ entries)
      (h : Mentions e.2 s) : Mentions (.dict entries) s

theorem Value.mentions_scalar_iff {s t : Scalar} : (scalar s).Mentions t ↔ t = s := by
  constructor
  · rintro ⟨⟩
    rfl
  · rintro rfl
    exact .scalar _

theorem Value.mentions_array_iff {items : List Value} {s : Scalar} :
    (array items).Mentions s ↔ ∃ v ∈ items, v.Mentions s := by
  constructor
  · intro h
    cases h with
    | item hv h => exact ⟨_, hv, h⟩
  · rintro ⟨v, hv, h⟩
    exact .item hv h

theorem Value.mentions_dict_iff {entries : List (Scalar × Value)} {s : Scalar} :
    (dict entries).Mentions s ↔ ∃ e ∈ entries, s = e.1 ∨ e.2.Mentions s := by
  constructor
  · intro h
    cases h with
    | key he => exact ⟨_, he, .inl rfl⟩
    | value he h => exact ⟨_, he, .inr h⟩
  · rintro ⟨e, he, rfl | h⟩
    · exact .key he
    · exact .value he h

/-- What holds of all scalars that a tree mentions may be added to what is known of it. -/
theorem Value.over_and_mentions {P Q : Scalar → Prop} {K : List Scalar → Prop} {v : Value} :
    v.Over (fun s => P s ∧ Q s) (fun keys => K keys ∧ ∀ k ∈ keys, Q k) ↔
      v.Over P K ∧ ∀ s, v.Mentions s → Q s := by
  constructor
  · intro h
    refine ⟨h.mono (fun _ h => h.1) fun _ h => h.1, ?_⟩
    intro s hs
    induction hs with
    | scalar s => exact (over_scalar_iff.mp h).2
    | item hv _ ih => exact ih (over_array_iff.mp h _ hv)
    | key he => exact (over_dict_iff.mp h).1.2 _ (List.mem_map_of_mem he)
    | value he _ ih => exact ih ((over_dict_iff.mp h).2 _ he)
  · rintro ⟨h, hQ⟩
    induction h with
    | scalar h => exact .scalar ⟨h, hQ _ (.scalar _)⟩
    | array _ ih => exact .array fun v hv => ih v hv fun s hs => hQ s (.item hv hs)
    | @dict entries hkeys _ ih =>
      refine .dict ⟨hkeys, ?_⟩ fun e he => ih e he fun s hs => hQ s (.value he hs)
      intro k hk
      obtain ⟨e, he, rfl⟩ := List.mem_map.mp hk
      exact hQ e.1 (.key he)

/-- A tree mentions only what its scalars and its keys can be. -/
theorem Value.Over.mentions {P Q : Scalar → Prop} {K : List Scalar → Prop} {v : Value}
    (h : v.Over P K) (hP : ∀ s, P s → Q s) (hK : ∀ keys, K keys → ∀ k ∈ keys, Q k) :
    ∀ s, v.Mentions s → Q s := by
  refine (over_and_mentions (P := fun _ => True) (K := fun _ => True)).mp ?_ |>.2
  exact h.mono (fun s hs => ⟨trivial, hP s hs⟩) fun keys hkeys => ⟨trivial, hK keys hkeys⟩

/-! ## What an encoding can express -/

namespace Encoding

/-- The scalars that have a form in an encoding.  Binary lists and XML have integers of 64 bits,
    with or without a sign; JSON has no limit but that of numbers as text. -/
def HasForm : Encoding → Scalar → Prop
  | binary, .int n => -0x8000000000000000 ≤ n ∧ n < 0x10000000000000000
  | binary, .text t => t.IsEncodable
  | binary, .uid n => n < 0x10000000000000000
  | binary, _ => True
  | xml, .null => False
  | xml, .int n => -0x8000000000000000 ≤ n ∧ n < 0x10000000000000000
  | xml, .text t => t.IsEncodable ∧ ∀ c ∈ t, Xml.isControl c = false
  | xml, .uid _ => False
  | xml, _ => True
  | json, .int n => Integer.isPrintable n = true
  | json, .real x => x.isFinite = true
  | json, .text t => t.IsEncodable
  | json, .data _ => False
  | json, .date _ => False
  | json, .uid _ => False
  | json, _ => True

/-- The keys that dictionaries can have in an encoding.  JSON writes keys of other kinds as text;
    to be sorted, keys must have an order among themselves. -/
structure HasKeys (e : Encoding) (sortKeys : Bool) (keys : List Scalar) : Prop where
  form : ∀ k ∈ keys, e.HasForm k
  text : ∀ k ∈ keys, e = .json ∨ k.text?.isSome = true
  order : sortKeys = true → Scalar.orderable keys = true

/-- The trees that an encoding can express. -/
abbrev Expresses (e : Encoding) (sortKeys : Bool) (v : Value) : Prop :=
  v.Over e.HasForm (e.HasKeys sortKeys)

/-- Texts are keys in every encoding, in any order, so it remains that all scalars have a form. -/
theorem expresses_iff_of_text {e : Encoding} {sortKeys : Bool} {v : Value}
    (h : v.Over (fun _ => True) fun keys => ∀ k ∈ keys, k.text?.isSome = true) :
    e.Expresses sortKeys v ↔ ∀ s, v.Mentions s → e.HasForm s := by
  constructor
  · intro hv
    exact hv.mentions (fun _ hs => hs) fun _ hkeys => hkeys.form
  · intro hv
    refine (Value.over_and_mentions.mpr ⟨h, hv⟩).mono (fun s hs => hs.2) fun keys hkeys => ?_
    exact ⟨hkeys.2, fun k hk => .inr (hkeys.1 k hk), fun _ => Scalar.orderable_of_text hkeys.1⟩

end Encoding

/-! ## Decisions -/

/-- A computation that decides a proposition: it gives a result if the proposition holds, and
    otherwise a fault of a given kind. -/
inductive Decides {ε α : Type} (P : Prop) (F : ε → Prop) : Except ε α → Prop where
  | ok {a : α} (h : P) : Decides P F (.ok a)
  | error {f : ε} (h : ¬ P) (hf : F f) : Decides P F (.error f)

namespace Decides

variable {ε ε' α β : Type} {P Q : Prop} {F F' : ε → Prop} {x : Except ε α}

theorem isOk_iff (h : Decides P F x) : x.isOk = true ↔ P := by
  cases h with
  | ok h => exact iff_of_true rfl h
  | error h _ => exact iff_of_false Bool.false_ne_true h

theorem exists_ok (h : Decides P F x) (hP : P) : ∃ a, x = .ok a := by
  cases h with
  | @ok a _ => exact ⟨a, rfl⟩
  | error hnot _ => exact absurd hP hnot

theorem exists_error (h : Decides P F x) (hP : ¬ P) : ∃ f, x = .error f ∧ F f := by
  cases h with
  | ok h => exact absurd h hP
  | @error f _ hf => exact ⟨f, rfl, hf⟩

theorem congr (h : Decides P F x) (hPQ : P ↔ Q) : Decides Q F x := by
  cases h with
  | ok h => exact .ok (hPQ.mp h)
  | error h hf => exact .error (fun hq => h (hPQ.mpr hq)) hf

theorem mono (h : Decides P F x) (hF : ∀ f, F f → F' f) : Decides P F' x := by
  cases h with
  | ok h => exact .ok h
  | error h hf => exact .error h (hF _ hf)

/-- A proposition decided by a test. -/
theorem ite {p : Prop} [Decidable p] {a : α} {f : ε} (hf : ¬ p → F f) :
    Decides p F (if p then .ok a else .error f) := by
  split
  · next h => exact .ok h
  · next h => exact .error h (hf h)

theorem map {g : α → β} (h : Decides P F x) : Decides P F (x.map g) := by
  cases h with
  | ok h => exact .ok h
  | error h hf => exact .error h hf

theorem mapError {g : ε → ε'} {G : ε' → Prop} (h : Decides P F x) (hF : ∀ f, F f → G (g f)) :
    Decides P G (x.mapError g) := by
  cases h with
  | ok h => exact .ok h
  | error h hf => exact .error h (hF _ hf)

/-- Two decisions, one after the other. -/
theorem bind {g : α → Except ε β} (h : Decides P F x) (hg : ∀ a, x = .ok a → P → Decides Q F (g a)) :
    Decides (P ∧ Q) F (x >>= g) := by
  cases h with
  | error h hf => exact .error (fun hpq => h hpq.1) hf
  | @ok a h =>
    show Decides (P ∧ Q) F (g a)
    exact (hg a rfl h).congr (by simp [h])

/-- A decision about each item of a list. -/
theorem mapM {Q : α → Prop} {g : α → Except ε β} {as : List α}
    (h : ∀ a ∈ as, Decides (Q a) F (g a)) : Decides (∀ a ∈ as, Q a) F (as.mapM g) := by
  induction as with
  | nil => exact .ok (List.forall_mem_nil _)
  | cons a as ih =>
    rw [List.mapM_cons]
    have hrest := ih fun b hb => h b (List.mem_cons_of_mem _ hb)
    refine ((h a List.mem_cons_self).bind fun b _ _ => hrest.map).congr ?_
    rw [List.forall_mem_cons]

/-- What a computation decides is whether it gives a result. -/
theorem isOk (h : Decides P F x) : Decides (x.isOk = true) F x := h.congr h.isOk_iff.symm

/-- A decision about the entries of a dictionary, which are put in order first if that is asked
    for: there is a fault if their keys have no order, or one of them in its own right. -/
theorem entries (sortKeys : Bool) (entries : List (Scalar × Value)) (w : Value → Except ε α)
    {g : Scalar × Except ε α → Except ε β} {K : Scalar → Prop} {Q : Value → Prop} {f : ε} (hf : F f)
    (hg : ∀ e ∈ entries, Decides (K e.1 ∧ Q e.2) F (g (e.1, w e.2))) :
    Decides (((sortKeys = true → Scalar.orderable (entries.map (·.1)) = true) ∧
        ∀ k ∈ entries.map (·.1), K k) ∧ ∀ e ∈ entries, Q e.2) F
      ((if sortKeys then
          (Scalar.sortByKey? (fun e => e.1) (entries.map fun e => (e.1, w e.2))).elim (.error f) .ok
        else .ok (entries.map fun e => (e.1, w e.2))) >>= fun listed => listed.mapM g) := by
  -- each entry stays what it is, wherever it is put
  have hall {listed : List (Scalar × Except ε α)}
      (hperm : listed.Perm (entries.map fun e => (e.1, w e.2))) :
      Decides ((∀ k ∈ entries.map (·.1), K k) ∧ ∀ e ∈ entries, Q e.2) F (listed.mapM g) := by
    have heach : ∀ m ∈ listed, Decides ((g m).isOk = true) F (g m) := by
      intro m hm
      obtain ⟨e, he, rfl⟩ := List.mem_map.mp (hperm.mem_iff.mp hm)
      exact (hg e he).isOk
    refine (mapM heach).congr ?_
    constructor
    · intro h
      have hentry : ∀ e ∈ entries, K e.1 ∧ Q e.2 := fun e he =>
        (hg e he).isOk_iff.mp (h _ (hperm.mem_iff.mpr (List.mem_map_of_mem he)))
      exact ⟨List.forall_mem_map.mpr fun e he => (hentry e he).1, fun e he => (hentry e he).2⟩
    · rintro ⟨hkeys, hvalues⟩ m hm
      obtain ⟨e, he, rfl⟩ := List.mem_map.mp (hperm.mem_iff.mp hm)
      exact (hg e he).isOk_iff.mpr ⟨hkeys _ (List.mem_map_of_mem he), hvalues e he⟩
  -- the keys are ordered on their own, whatever is attached to them
  have hkeys : (entries.map fun e => (e.1, w e.2)).map (fun e => e.1) = entries.map (·.1) := by
    rw [List.map_map]
    rfl
  cases sortKeys with
  | false => exact (hall (.refl _)).congr (by simp)
  | true =>
    rw [if_pos rfl]
    by_cases horder : Scalar.orderable (entries.map (·.1)) = true
    · obtain ⟨listed, hlisted⟩ : ∃ listed, Scalar.sortByKey? (fun e => e.1)
          (entries.map fun e => (e.1, w e.2)) = some listed := by
        rw [Scalar.sortByKey?, hkeys, if_pos horder]
        exact ⟨_, rfl⟩
      rw [hlisted]
      exact (hall (Scalar.perm_of_sortByKey? hlisted)).congr (by simp [horder])
    · rw [Scalar.sortByKey?, hkeys, if_neg horder]
      exact .error (fun h => horder (h.1.1 rfl)) hf

end Decides

end PropertyList
