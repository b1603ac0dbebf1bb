/-
  PropertyList.Proofs.Value

  What is said about values as trees: how deep they nest, which scalars and keys
  they hold, when two of them are the same, and what becomes of them when every
  scalar and every dictionary is changed in the same way.  `arranged` lists the
  entries of every dictionary in the order of their keys.
-/
import PropertyList.Value
import PropertyList.Proofs.Text.Order
import Mathlib.Data.List.Forall2

namespace PropertyList

/-! ## Texts and keys -/

/-- A text without surrogates, which every encoding can write. -/
def Text.IsEncodable (t : Text) : Prop := ∃ cs : List Char, t = ofChars cs

/-- A text can be written if none of its code points is a surrogate. -/
theorem Text.isEncodable_iff {t : Text} : t.IsEncodable ↔ ∀ c ∈ t, ∃ d : Char, c = .scalar d := by
  constructor
  · rintro ⟨cs, rfl⟩ c hc
    obtain ⟨d, -, rfl⟩ := List.mem_map.mp hc
    exact ⟨d, rfl⟩
  · intro h
    induction t with
    | nil => exact ⟨[], rfl⟩
    | cons c t ih =>
      obtain ⟨d, rfl⟩ := h c List.mem_cons_self
      obtain ⟨cs, rfl⟩ := ih fun e he => h e (List.mem_cons_of_mem _ he)
      exact ⟨d :: cs, rfl⟩

/-- The keys of a dictionary: distinct texts, all of a given kind. -/
structure TextKeys (Q : Text → Prop) (keys : List Scalar) : Prop where
  nodup : keys.Nodup
  text : ∀ k ∈ keys, ∃ t, k = .text t ∧ Q t

namespace TextKeys

variable {Q R : Text → Prop} {keys keys' : List Scalar}

theorem mono (h : TextKeys Q keys) (hQR : ∀ t, Q t → R t) : TextKeys R keys := by
  refine ⟨h.nodup, fun k hk => ?_⟩
  obtain ⟨t, ht, hQ⟩ := h.text k hk
  exact ⟨t, ht, hQR t hQ⟩

theorem perm (h : TextKeys Q keys) (hperm : keys.Perm keys') : TextKeys Q keys' :=
  ⟨hperm.nodup_iff.mp h.nodup, fun k hk => h.text k (hperm.mem_iff.mpr hk)⟩

theorem isText (h : TextKeys Q keys) {k : Scalar} (hk : k ∈ keys) : k.text?.isSome = true := by
  obtain ⟨t, rfl, -⟩ := h.text k hk
  rfl

end TextKeys

namespace Value

/-! ## Induction -/

/-- Induction over a tree, where all parts of a container come before it. -/
@[elab_as_elim]
theorem induct {motive : Value → Prop} (scalar : ∀ s, motive (.scalar s))
    (array : ∀ items, (∀ v ∈ items, motive v) → motive (.array items))
    (dict : ∀ entries, (∀ e ∈ entries, motive e.2) → motive (.dict entries))
    (back : ∀ k, motive (.back k)) (v : Value) : motive v := by
  refine @Value.rec motive (fun items => ∀ v ∈ items, motive v)
    (fun entries => ∀ e ∈ entries, motive e.2) (fun e => motive e.2)
    scalar array dict back ?_ ?_ ?_ ?_ ?_ v
  · simp
  · intro v vs hv hvs w hw
    rcases List.mem_cons.mp hw with rfl | hw
    · exact hv
    · exact hvs w hw
  · simp
  · intro e es he hes f hf
    rcases List.mem_cons.mp hf with rfl | hf
    · exact he
    · exact hes f hf
  · exact fun _ _ h => h

/-! ## Depth -/

mutual

/-- How many containers are nested in each other. -/
def depth : Value → Nat
  | .scalar _ => 0
  | .back _ => 0
  | .array items => itemsDepth items + 1
  | .dict entries => entriesDepth entries + 1

/-- The depth of the deepest item. -/
def itemsDepth : List Value → Nat
  | [] => 0
  | v :: vs => max (depth v) (itemsDepth vs)

/-- The depth of the deepest entry. -/
def entriesDepth : List (Scalar × Value) → Nat
  | [] => 0
  | (_, v) :: es => max (depth v) (entriesDepth es)

end

theorem itemsDepth_le_iff {items : List Value} {n : Nat} :
    itemsDepth items ≤ n ↔ ∀ v ∈ items, v.depth ≤ n := by
  induction items with
  | nil => simp [itemsDepth]
  | cons v vs ih => simp [itemsDepth, ih]

theorem entriesDepth_le_iff {entries : List (Scalar × Value)} {n : Nat} :
    entriesDepth entries ≤ n ↔ ∀ e ∈ entries, e.2.depth ≤ n := by
  induction entries with
  | nil => simp [entriesDepth]
  | cons e es ih =>
    obtain ⟨k, v⟩ := e
    simp [entriesDepth, ih]

theorem depth_array_le_iff {items : List Value} {n : Nat} :
    (array items).depth ≤ n + 1 ↔ ∀ v ∈ items, v.depth ≤ n := by
  rw [depth, Nat.add_le_add_iff_right, itemsDepth_le_iff]

theorem depth_dict_le_iff {entries : List (Scalar × Value)} {n : Nat} :
    (dict entries).depth ≤ n + 1 ↔ ∀ e ∈ entries, e.2.depth ≤ n := by
  rw [depth, Nat.add_le_add_iff_right, entriesDepth_le_iff]

theorem depth_lt_of_mem_array {v : Value} {vs : List Value} (h : v ∈ vs) :
    v.depth < (array vs).depth := by
  rw [depth]
  exact Nat.lt_succ_of_le (itemsDepth_le_iff.mp (Nat.le_refl _) v h)

theorem depth_lt_of_mem_dict {e : Scalar × Value} {es : List (Scalar × Value)} (h : e ∈ es) :
    e.2.depth < (dict es).depth := by
  rw [depth]
  exact Nat.lt_succ_of_le (entriesDepth_le_iff.mp (Nat.le_refl _) e h)

/-- A container is at least one level deep. -/
theorem exists_depth_eq_succ_of_array {items : List Value} {n : Nat}
    (h : (array items).depth ≤ n) : ∃ m, n = m + 1 ∧ ∀ v ∈ items, v.depth ≤ m := by
  obtain ⟨m, rfl⟩ : ∃ m, n = m + 1 := ⟨n - 1, by rw [depth] at h; omega⟩
  exact ⟨m, rfl, depth_array_le_iff.mp h⟩

theorem exists_depth_eq_succ_of_dict {entries : List (Scalar × Value)} {n : Nat}
    (h : (dict entries).depth ≤ n) : ∃ m, n = m + 1 ∧ ∀ e ∈ entries, e.2.depth ≤ m := by
  obtain ⟨m, rfl⟩ : ∃ m, n = m + 1 := ⟨n - 1, by rw [depth] at h; omega⟩
  exact ⟨m, rfl, depth_dict_le_iff.mp h⟩

/-- Below a number of levels there is room for a container if there is for each of its parts one
    level further down. -/
theorem add_depth_array_le_iff {items : List Value} {level limit : Nat} (h : level < limit) :
    level + (array items).depth ≤ limit ↔ ∀ v ∈ items, level + 1 + v.depth ≤ limit := by
  obtain ⟨room, rfl⟩ : ∃ room, limit = level + (room + 1) := ⟨limit - level - 1, by omega⟩
  rw [Nat.add_le_add_iff_left, depth_array_le_iff]
  refine forall₂_congr fun v _ => ?_
  omega

theorem add_depth_dict_le_iff {entries : List (Scalar × Value)} {level limit : Nat}
    (h : level < limit) :
    level + (dict entries).depth ≤ limit ↔ ∀ e ∈ entries, level + 1 + e.2.depth ≤ limit := by
  obtain ⟨room, rfl⟩ : ∃ room, limit = level + (room + 1) := ⟨limit - level - 1, by omega⟩
  rw [Nat.add_le_add_iff_left, depth_dict_le_iff]
  refine forall₂_congr fun e _ => ?_
  omega

theorem lt_add_depth_array (items : List Value) {level limit : Nat} (h : limit ≤ level) :
    limit < level + (array items).depth := by
  rw [depth]
  omega

theorem lt_add_depth_dict (entries : List (Scalar × Value)) {level limit : Nat}
    (h : limit ≤ level) : limit < level + (dict entries).depth := by
  rw [depth]
  omega

/-! ## Trees of a kind -/

/-- A tree whose scalars are all of one kind, and the lists of keys of its dictionaries of
    another. -/
inductive Over (P : Scalar → Prop) (K : List Scalar → Prop) : Value → Prop where
  | scalar {s : Scalar} (h : P s) : Over P K (.scalar s)
  | array {items : List Value} (hitems : ∀ v ∈ items, Over P K v) : Over P K (.array items)
  | dict {entries : List (Scalar × Value)} (hkeys : K (entries.map (·.1)))
      (hentries : ∀ e ∈ entries, Over P K e.2) : Over P K (.dict entries)

theorem over_scalar_iff {P : Scalar → Prop} {K : List Scalar → Prop} {s : Scalar} :
    (scalar s).Over P K ↔ P s :=
  ⟨fun h => by cases h with | scalar h => exact h, .scalar⟩

theorem over_array_iff {P : Scalar → Prop} {K : List Scalar → Prop} {items : List Value} :
    (array items).Over P K ↔ ∀ v ∈ items, v.Over P K :=
  ⟨fun h => by cases h with | array h => exact h, .array⟩

theorem over_dict_iff {P : Scalar → Prop} {K : List Scalar → Prop}
    {entries : List (Scalar × Value)} :
    (dict entries).Over P K ↔ K (entries.map (·.1)) ∧ ∀ e ∈ entries, e.2.Over P K :=
  ⟨fun h => by cases h with | dict hkeys h => exact ⟨hkeys, h⟩, fun h => .dict h.1 h.2⟩

theorem not_over_back {P : Scalar → Prop} {K : List Scalar → Prop} {k : Nat} :
    ¬ (back k).Over P K := by
  rintro ⟨⟩

theorem Over.mono {P P' : Scalar → Prop} {K K' : List Scalar → Prop} {v : Value}
    (h : v.Over P K) (hP : ∀ s, P s → P' s) (hK : ∀ keys, K keys → K' keys) : v.Over P' K' := by
  induction h with
  | scalar h => exact .scalar (hP _ h)
  | array _ ih => exact .array ih
  | dict hkeys _ ih => exact .dict (hK _ hkeys) ih

/-- A tree whose dictionaries have distinct texts as keys. -/
abbrev IsTextKeyed (v : Value) : Prop := v.Over (fun _ => True) (TextKeys fun _ => True)

theorem Over.isTextKeyed {P : Scalar → Prop} {Q : Text → Prop} {v : Value}
    (h : v.Over P (TextKeys Q)) : v.IsTextKeyed :=
  h.mono (fun _ _ => trivial) fun _ hkeys => hkeys.mono fun _ _ => trivial

end Value

/-! ## Sameness -/

/-- Every item of a list that matches another one has its match. -/
theorem exists_of_forall₂_left {α β : Type} {R : α → β → Prop} {as : List α} {bs : List β}
    (h : List.Forall₂ R as bs) {a : α} (ha : a ∈ as) : ∃ b ∈ bs, R a b := by
  induction h with
  | nil => cases ha
  | @cons a' b as bs hab _ ih =>
    rcases List.mem_cons.mp ha with rfl | ha
    · exact ⟨b, List.mem_cons_self, hab⟩
    · obtain ⟨b, hb, h⟩ := ih ha
      exact ⟨b, List.mem_cons_of_mem _ hb, h⟩

/-- Where every item of a list has a match, so does the list. -/
theorem exists_forall₂_of_forall {α β : Type} {R : α → β → Prop} {as : List α}
    (h : ∀ a ∈ as, ∃ b, R a b) : ∃ bs, List.Forall₂ R as bs := by
  induction as with
  | nil => exact ⟨[], .nil⟩
  | cons a as ih =>
    obtain ⟨b, hb⟩ := h a List.mem_cons_self
    obtain ⟨bs, hbs⟩ := ih fun a ha => h a (List.mem_cons_of_mem _ ha)
    exact ⟨b :: bs, .cons hb hbs⟩

/-- Lists that match still do so in any way that follows for their items. -/
theorem forall₂_imp_of_mem {α β : Type} {R S : α → β → Prop} {as : List α} {bs : List β}
    (h : List.Forall₂ R as bs) (himp : ∀ a b, a ∈ as → b ∈ bs → R a b → S a b) :
    List.Forall₂ S as bs := by
  induction h with
  | nil => exact .nil
  | cons hab _ ih =>
    refine .cons (himp _ _ List.mem_cons_self List.mem_cons_self hab) (ih fun a b ha hb => ?_)
    exact himp a b (List.mem_cons_of_mem _ ha) (List.mem_cons_of_mem _ hb)

/-- Two lists that match the same list match each other. -/
theorem forall₂_of_forall₂ {α β γ : Type} {R : α → β → Prop} {S : α → γ → Prop}
    {T : β → γ → Prop} {as : List α} {bs : List β} {cs : List γ} (h : List.Forall₂ R as bs)
    (h' : List.Forall₂ S as cs) (himp : ∀ a b c, R a b → S a c → T b c) : List.Forall₂ T bs cs := by
  induction h generalizing cs with
  | nil =>
    cases h'
    exact .nil
  | cons hab _ ih =>
    cases h' with
    | cons hac hcs => exact .cons (himp _ _ _ hab hac) (ih hcs)

/-- Lists whose items match in one function have the same values of it. -/
theorem map_eq_map_of_forall₂ {α β γ : Type} {R : α → β → Prop} {f : α → γ} {f' : β → γ}
    {as : List α} {bs : List β} (h : List.Forall₂ R as bs) (hf : ∀ a b, R a b → f a = f' b) :
    as.map f = bs.map f' := by
  induction h with
  | nil => rfl
  | cons hab _ ih => rw [List.map_cons, List.map_cons, hf _ _ hab, ih]

/-- A function that succeeds on every item succeeds on the list. -/
theorem mapM_map_eq_ok {α β γ ε : Type} {g : α → β} {f : β → Except ε γ} {as : List α} {cs : List γ}
    (h : List.Forall₂ (fun a c => f (g a) = .ok c) as cs) : (as.map g).mapM f = .ok cs := by
  induction h with
  | nil => rfl
  | cons ha _ ih =>
    rw [List.map_cons, List.mapM_cons, ha, ih]
    rfl

/-- What a computation in two steps gives comes from what its first step gives. -/
theorem exists_of_bind_eq_ok {ε α β : Type} {x : Except ε α} {f : α → Except ε β} {b : β}
    (h : x >>= f = .ok b) : ∃ a, x = .ok a ∧ f a = .ok b := by
  cases x with
  | error e => cases h
  | ok a => exact ⟨a, rfl, h⟩

/-- A computation that goes on from a result has one. -/
theorem exists_of_map_eq_ok {ε α β : Type} {x : Except ε α} {f : α → β} {b : β}
    (h : x.map f = .ok b) : ∃ a, x = .ok a ∧ f a = b := by
  cases x with
  | error e => cases h
  | ok a => exact ⟨a, rfl, Except.ok.inj h⟩

/-- What a computation on each item of a list gives, if it gives anything. -/
theorem forall₂_of_mapM {ε α β : Type} {g : α → Except ε β} {as : List α} {bs : List β}
    (h : as.mapM g = .ok bs) : List.Forall₂ (fun a b => g a = .ok b) as bs := by
  induction as generalizing bs with
  | nil =>
    obtain rfl := Except.ok.inj h
    exact .nil
  | cons a as ih =>
    rw [List.mapM_cons] at h
    obtain ⟨b, hb, h⟩ := exists_of_bind_eq_ok h
    obtain ⟨rest, hrest, h⟩ := exists_of_bind_eq_ok h
    obtain rfl := Except.ok.inj h
    exact .cons hb (ih hrest)

/-- A fault of a computation in two steps is one of its first step or of its second. -/
theorem error_cases_of_bind {ε α β : Type} {x : Except ε α} {f : α → Except ε β} {e : ε}
    (h : x >>= f = .error e) : x = .error e ∨ ∃ a, x = .ok a ∧ f a = .error e := by
  cases x with
  | error e' => exact .inl (congrArg Except.error (Except.error.inj h))
  | ok a => exact .inr ⟨a, rfl, h⟩

theorem eq_error_of_map {ε α β : Type} {x : Except ε α} {f : α → β} {e : ε}
    (h : x.map f = .error e) : x = .error e := by
  cases x with
  | error e' => exact congrArg Except.error (Except.error.inj h)
  | ok a => cases h

/-- Where going through a list fails, it does so at one of the items. -/
theorem exists_of_foldlM_eq_error {ε α σ : Type} {step : σ → α → Except ε σ} {as : List α} {s : σ}
    {e : ε} (h : as.foldlM step s = .error e) : ∃ done a rest s', as = done ++ a :: rest ∧
      done.foldlM step s = .ok s' ∧ step s' a = .error e := by
  induction as generalizing s with
  | nil => cases h
  | cons a as ih =>
    rw [List.foldlM_cons] at h
    rcases error_cases_of_bind h with hstep | ⟨s', hstep, hrest⟩
    · exact ⟨[], a, as, s, rfl, rfl, hstep⟩
    · obtain ⟨done, b, rest, last, rfl, hdone, hb⟩ := ih hrest
      refine ⟨a :: done, b, rest, last, rfl, ?_, hb⟩
      rw [List.foldlM_cons, hstep]
      exact hdone

/-- What a computation gives does not depend on how its faults are named. -/
theorem eq_ok_of_mapError {ε ε' α : Type} {x : Except ε α} {f : ε → ε'} {a : α}
    (h : x.mapError f = .ok a) : x = .ok a := by
  cases x with
  | error e => cases h
  | ok b => exact congrArg Except.ok (Except.ok.inj h)

/-- Equal as numbers, or both no numbers. -/
def Binary64.Same (x y : Binary64) : Prop :=
  x.compare? y = some .eq ∨ x.isNaN = true ∧ y.isNaN = true

/-- Of one kind and equal, where reals are compared as numbers. -/
def Scalar.Same : Scalar → Scalar → Prop
  | real x, real y => x.Same y
  | a, b => a = b

namespace Value

mutual

/-- The same kind of node at every position, with the same scalars and keys in the same order. -/
def Same : Value → Value → Prop
  | .scalar a, .scalar b => a.Same b
  | .array vs, .array ws => SameItems vs ws
  | .dict es, .dict fs => SameEntries es fs
  | .back k, .back l => k = l
  | _, _ => False

/-- The same items. -/
def SameItems : List Value → List Value → Prop
  | [], [] => True
  | v :: vs, w :: ws => Same v w ∧ SameItems vs ws
  | _, _ => False

/-- The same keys with the same values. -/
def SameEntries : List (Scalar × Value) → List (Scalar × Value) → Prop
  | [], [] => True
  | (k, v) :: es, (l, w) :: fs => k = l ∧ Same v w ∧ SameEntries es fs
  | _, _ => False

end

theorem sameItems_iff {vs ws : List Value} : SameItems vs ws ↔ List.Forall₂ Same vs ws := by
  induction vs generalizing ws with
  | nil => cases ws <;> simp [SameItems]
  | cons v vs ih => cases ws <;> simp [SameItems, ih]

theorem sameEntries_iff {es fs : List (Scalar × Value)} :
    SameEntries es fs ↔ List.Forall₂ (fun e f => e.1 = f.1 ∧ Same e.2 f.2) es fs := by
  induction es generalizing fs with
  | nil => cases fs <;> simp [SameEntries]
  | cons e es ih =>
    obtain ⟨k, v⟩ := e
    cases fs with
    | nil => simp [SameEntries]
    | cons f fs =>
      obtain ⟨l, w⟩ := f
      simp [SameEntries, ih, and_assoc]

/-- Induction over two trees that are the same. -/
theorem same_induct {motive : Value → Value → Prop}
    (scalar : ∀ s t : Scalar, s.Same t → motive (.scalar s) (.scalar t))
    (array : ∀ vs ws, List.Forall₂ motive vs ws → motive (.array vs) (.array ws))
    (dict : ∀ es fs, List.Forall₂ (fun e f => e.1 = f.1 ∧ motive e.2 f.2) es fs →
      motive (.dict es) (.dict fs))
    (back : ∀ k, motive (.back k) (.back k)) {v w : Value} (h : v.Same w) : motive v w := by
  induction v using Value.induct generalizing w with
  | scalar s =>
    -- only trees of one kind are the same
    cases w with
    | scalar t =>
      rw [Same] at h
      exact scalar s t h
    | array ws => simp [Same] at h
    | dict fs => simp [Same] at h
    | back k => simp [Same] at h
  | array vs ih =>
    cases w with
    | array ws =>
      rw [Same, sameItems_iff] at h
      exact array vs ws (forall₂_imp_of_mem h fun a b ha _ hab => ih a ha hab)
    | scalar t => simp [Same] at h
    | dict fs => simp [Same] at h
    | back k => simp [Same] at h
  | dict es ih =>
    cases w with
    | dict fs =>
      rw [Same, sameEntries_iff] at h
      exact dict es fs (forall₂_imp_of_mem h fun e f he _ hef => ⟨hef.1, ih e he hef.2⟩)
    | scalar t => simp [Same] at h
    | array ws => simp [Same] at h
    | back k => simp [Same] at h
  | back k =>
    cases w with
    | back l =>
      rw [Same] at h
      exact h ▸ back k
    | scalar t => simp [Same] at h
    | array ws => simp [Same] at h
    | dict fs => simp [Same] at h

/-- Trees that are the same are equal, if this is so for the scalars of one of them. -/
theorem Same.eq_of_over {P : Scalar → Prop} {K : List Scalar → Prop} {v w : Value}
    (h : v.Same w) (hw : w.Over P K) (hP : ∀ s, P s → ∀ t : Scalar, t.Same s → t = s) : v = w := by
  revert hw
  refine same_induct (motive := fun v w => w.Over P K → v = w) ?_ ?_ ?_ ?_ h
  · intro s t hst hover
    cases hover with
    | scalar ht => rw [hP t ht s hst]
  · intro vs ws hvw hover
    cases hover with
    | array hitems =>
      have heq := forall₂_imp_of_mem hvw fun v w _ hw hvw => hvw (hitems w hw)
      rw [List.forall₂_eq_eq_eq] at heq
      rw [heq]
  · intro es fs hef hover
    cases hover with
    | dict hkeys hentries =>
      have heq := forall₂_imp_of_mem hef fun e f _ hf hef =>
        Prod.ext hef.1 (hef.2 (hentries f hf))
      rw [List.forall₂_eq_eq_eq] at heq
      rw [heq]
  · exact fun k _ => rfl

/-- Trees that are the same are equally deep. -/
theorem Same.depth_eq {v w : Value} (h : v.Same w) : v.depth = w.depth := by
  refine same_induct (motive := fun v w => v.depth = w.depth) ?_ ?_ ?_ ?_ h
  · exact fun _ _ _ => rfl
  · intro vs ws hvw
    rw [depth, depth]
    congr 1
    induction hvw with
    | nil => rfl
    | cons hd _ ih => rw [itemsDepth, itemsDepth, hd, ih]
  · intro es fs hef
    rw [depth, depth]
    congr 1
    induction hef with
    | nil => rfl
    | cons hd _ ih => rw [entriesDepth, entriesDepth, hd.2, ih]
  · exact fun _ => rfl

/-- Trees that are the same have the same keys. -/
theorem Same.over {v w : Value} {K : List Scalar → Prop} (h : v.Same w)
    (hw : w.Over (fun _ => True) K) : v.Over (fun _ => True) K := by
  revert hw
  refine same_induct (motive := fun v w => w.Over (fun _ => True) K → v.Over (fun _ => True) K)
    ?_ ?_ ?_ ?_ h
  · exact fun _ _ _ _ => .scalar trivial
  · intro vs ws hvw hover
    cases hover with
    | array hws =>
      refine .array fun v hv => ?_
      obtain ⟨w, hw, himp⟩ := exists_of_forall₂_left hvw hv
      exact himp (hws w hw)
  · intro es fs hef hover
    cases hover with
    | dict hkeys hfs =>
      refine .dict ?_ fun e he => ?_
      · rw [map_eq_map_of_forall₂ hef fun e f hef => hef.1]
        exact hkeys
      obtain ⟨f, hf, himp⟩ := exists_of_forall₂_left hef he
      exact himp.2 (hfs f hf)
  · exact fun _ h => h

end Value

namespace Binary64

theorem same_refl (x : Binary64) : x.Same x := by
  unfold Same compare?
  cases hn : x.isNaN with
  | true => simp
  | false =>
    cases hf : x.isFinite with
    | true => simp [compareDyadic]
    | false => simp

end Binary64

theorem Scalar.same_refl (s : Scalar) : s.Same s := by
  cases s <;> simp [Scalar.Same, Binary64.same_refl]

namespace Value

theorem same_refl (v : Value) : v.Same v := by
  induction v using induct with
  | scalar s =>
    rw [Same]
    exact s.same_refl
  | array items ih =>
    rw [Same, sameItems_iff, List.forall₂_same]
    exact ih
  | dict entries ih =>
    rw [Same, sameEntries_iff, List.forall₂_same]
    exact fun e he => ⟨rfl, ih e he⟩
  | back k => rw [Same]

/-! ## Transformations -/

mutual

/-- The tree with `f` applied to its scalars, and then, from the inside out, `d` to the entries of
    its dictionaries. -/
def transform (f : Scalar → Scalar)
    (d : List (Scalar × Value) → List (Scalar × Value)) : Value → Value
  | .scalar s => .scalar (f s)
  | .array items => .array (transformItems f d items)
  | .dict entries => .dict (d (transformEntries f d entries))
  | .back k => .back k

/-- The items, each of them transformed. -/
def transformItems (f : Scalar → Scalar)
    (d : List (Scalar × Value) → List (Scalar × Value)) : List Value → List Value
  | [] => []
  | v :: vs => transform f d v :: transformItems f d vs

/-- The entries with their keys, each value transformed. -/
def transformEntries (f : Scalar → Scalar)
    (d : List (Scalar × Value) → List (Scalar × Value)) :
    List (Scalar × Value) → List (Scalar × Value)
  | [] => []
  | (k, v) :: es => (k, transform f d v) :: transformEntries f d es

end

section Transform

variable (f : Scalar → Scalar) (d : List (Scalar × Value) → List (Scalar × Value))

@[simp] theorem transform_scalar (s : Scalar) : transform f d (.scalar s) = .scalar (f s) := by
  rw [transform]

@[simp] theorem transform_array (items : List Value) :
    transform f d (.array items) = .array (items.map (transform f d)) := by
  have h (vs : List Value) : transformItems f d vs = vs.map (transform f d) := by
    induction vs with
    | nil => rw [transformItems, List.map_nil]
    | cons v vs ih => rw [transformItems, ih, List.map_cons]
  rw [transform, h]

@[simp] theorem transform_dict (entries : List (Scalar × Value)) :
    transform f d (.dict entries) = .dict (d (entries.map fun e => (e.1, transform f d e.2))) := by
  have h (es : List (Scalar × Value)) :
      transformEntries f d es = es.map fun e => (e.1, transform f d e.2) := by
    induction es with
    | nil => rw [transformEntries, List.map_nil]
    | cons e es ih => rw [transformEntries, ih, List.map_cons]
  rw [transform, h]

@[simp] theorem transform_back (k : Nat) : transform f d (.back k) = .back k := by
  rw [transform]

/-- Transforming a tree of one kind gives a tree of another, if the transformations do so. -/
theorem Over.transform {P P' : Scalar → Prop} {K K' : List Scalar → Prop} {v : Value}
    (h : v.Over P K) (hf : ∀ s, P s → P' (f s))
    (hd : ∀ es : List (Scalar × Value), K (es.map (·.1)) →
      K' ((d es).map (·.1)) ∧ ∀ e ∈ d es, ∃ e' ∈ es, e.2 = e'.2) :
    (v.transform f d).Over P' K' := by
  induction h with
  | @scalar s hs =>
    rw [transform_scalar]
    exact .scalar (hf s hs)
  | @array items _ ih =>
    rw [transform_array]
    refine .array fun w hw => ?_
    obtain ⟨v, hv, rfl⟩ := List.mem_map.mp hw
    exact ih v hv
  | @dict entries hkeys _ ih =>
    -- the values of the entries change first, and this leaves the keys alone
    have hsame : (entries.map fun e => (e.1, Value.transform f d e.2)).map (·.1) =
        entries.map (·.1) := by
      rw [List.map_map]
      rfl
    obtain ⟨hkeys', hvalues⟩ := hd (entries.map fun e => (e.1, Value.transform f d e.2))
      (hsame ▸ hkeys)
    rw [transform_dict]
    refine .dict hkeys' fun e he => ?_
    obtain ⟨e', he', heq⟩ := hvalues e he
    obtain ⟨e₀, he₀, rfl⟩ := List.mem_map.mp he'
    rw [heq]
    exact ih e₀ he₀

end Transform

/-! ## Entries in the order of their keys -/

/-- Entries in ascending order of their keys, by code point. -/
def sortEntries (entries : List (Scalar × Value)) : List (Scalar × Value) :=
  Text.sortBy (fun e => e.1.keyText) entries

/-- The tree with the entries of every dictionary in ascending order of their keys. -/
def sorted (v : Value) : Value := transform id sortEntries v

/-- The tree as it is listed: sorted, or as it is. -/
def arranged (sortKeys : Bool) (v : Value) : Value := if sortKeys then v.sorted else v

@[simp] theorem arranged_false (v : Value) : v.arranged false = v := rfl

@[simp] theorem arranged_true (v : Value) : v.arranged true = v.sorted := rfl

theorem sortEntries_perm (entries : List (Scalar × Value)) : (sortEntries entries).Perm entries :=
  Text.sortBy_perm _ entries

theorem sortEntries_sortEntries (entries : List (Scalar × Value)) :
    sortEntries (sortEntries entries) = sortEntries entries :=
  Text.sortBy_sortBy _ entries

theorem sorted_scalar (s : Scalar) : (scalar s).sorted = .scalar s := transform_scalar id _ s

theorem sorted_array (items : List Value) : (array items).sorted = .array (items.map sorted) :=
  transform_array id _ items

theorem sorted_dict (entries : List (Scalar × Value)) :
    (dict entries).sorted = .dict (sortEntries (entries.map fun e => (e.1, e.2.sorted))) :=
  transform_dict id _ entries

/-- Sorting the entries and sorting inside their values can be done in either order. -/
theorem sortEntries_map_sorted (entries : List (Scalar × Value)) :
    sortEntries (entries.map fun e => (e.1, e.2.sorted)) =
      (sortEntries entries).map fun e => (e.1, e.2.sorted) :=
  Text.sortBy_map fun _ _ => rfl

/-- The entries of a dictionary as they are listed: sorted, or as they are. -/
def listedEntries (sortKeys : Bool) (entries : List (Scalar × Value)) : List (Scalar × Value) :=
  if sortKeys then sortEntries entries else entries

/-- Sorted entries are listed as they are. -/
theorem listedEntries_sorted (entries : List (Scalar × Value)) :
    listedEntries true (sortEntries (entries.map fun e => (e.1, e.2.sorted))) =
      (listedEntries true entries).map fun e => (e.1, e.2.sorted) := by
  show sortEntries (sortEntries _) = (sortEntries entries).map _
  rw [sortEntries_sortEntries, sortEntries_map_sorted]

theorem keys_sorted_perm (entries : List (Scalar × Value)) :
    ((sortEntries (entries.map fun e => (e.1, e.2.sorted))).map (·.1)).Perm
      (entries.map (·.1)) := by
  refine ((sortEntries_perm _).map _).trans ?_
  rw [List.map_map]
  exact .refl _

/-- Sorting by keys that are text puts entries in order, whatever becomes of their values. -/
theorem sortByKey?_map {α : Type} {Q : Text → Prop} {entries : List (Scalar × Value)}
    (h : TextKeys Q (entries.map (·.1))) (f : Value → α) :
    Scalar.sortByKey? (fun e : Scalar × α => e.1) (entries.map fun e => (e.1, f e.2)) =
      some ((sortEntries entries).map fun e => (e.1, f e.2)) := by
  rw [Scalar.sortByKey?_map_snd,
    Scalar.sortByKey?_of_text fun e he => h.isText (List.mem_map_of_mem he), sortEntries]
  rfl

theorem listedEntries_perm (sortKeys : Bool) (entries : List (Scalar × Value)) :
    (listedEntries sortKeys entries).Perm entries := by
  cases sortKeys with
  | false => exact .refl _
  | true => exact sortEntries_perm entries

theorem arranged_scalar (sortKeys : Bool) (s : Scalar) :
    (scalar s).arranged sortKeys = .scalar s := by
  cases sortKeys with
  | false => rfl
  | true => exact sorted_scalar s

theorem arranged_array (sortKeys : Bool) (items : List Value) :
    (array items).arranged sortKeys = .array (items.map (arranged sortKeys)) := by
  cases sortKeys with
  | false => exact congrArg array (List.map_id' items).symm
  | true => exact sorted_array items

theorem arranged_dict (sortKeys : Bool) (entries : List (Scalar × Value)) :
    (dict entries).arranged sortKeys =
      .dict ((listedEntries sortKeys entries).map fun e => (e.1, e.2.arranged sortKeys)) := by
  cases sortKeys with
  | false => exact congrArg dict (List.map_id' entries).symm
  | true =>
    refine (sorted_dict entries).trans (congrArg dict ?_)
    exact sortEntries_map_sorted entries

/-- Listing entries in order keeps what the scalars and the keys are. -/
theorem Over.arranged {P : Scalar → Prop} {K : List Scalar → Prop} {v : Value} (sortKeys : Bool)
    (h : v.Over P K) (hK : ∀ keys keys' : List Scalar, keys.Perm keys' → K keys → K keys') :
    (v.arranged sortKeys).Over P K := by
  induction h with
  | @scalar s h =>
    rw [arranged_scalar]
    exact .scalar h
  | @array items _ ih =>
    rw [arranged_array]
    refine .array fun v hv => ?_
    obtain ⟨w, hw, rfl⟩ := List.mem_map.mp hv
    exact ih w hw
  | @dict entries hkeys _ ih =>
    have hperm := listedEntries_perm sortKeys entries
    rw [arranged_dict]
    refine .dict ?_ fun e he => ?_
    · rw [List.map_map]
      exact hK _ _ (hperm.map (·.1)).symm hkeys
    · obtain ⟨f, hf, rfl⟩ := List.mem_map.mp he
      exact ih f (hperm.mem_iff.mp hf)

theorem depth_arranged_le (sortKeys : Bool) (v : Value) : (v.arranged sortKeys).depth ≤ v.depth := by
  induction v using Value.induct with
  | scalar s => rw [arranged_scalar]
  | array items ih =>
    obtain ⟨n, hn, hitems⟩ := exists_depth_eq_succ_of_array (Nat.le_refl (array items).depth)
    rw [hn, arranged_array, depth_array_le_iff]
    intro v hv
    obtain ⟨w, hw, rfl⟩ := List.mem_map.mp hv
    exact Nat.le_trans (ih w hw) (hitems w hw)
  | dict entries ih =>
    obtain ⟨n, hn, hentries⟩ := exists_depth_eq_succ_of_dict (Nat.le_refl (dict entries).depth)
    rw [hn, arranged_dict, depth_dict_le_iff]
    intro e he
    obtain ⟨f, hf, rfl⟩ := List.mem_map.mp he
    have hmem := (listedEntries_perm sortKeys entries).mem_iff.mp hf
    exact Nat.le_trans (ih f hmem) (hentries f hmem)
  | back k => cases sortKeys <;> exact Nat.le_refl _

theorem sorted_sorted (v : Value) : v.sorted.sorted = v.sorted := by
  induction v using induct with
  | scalar s => rw [sorted_scalar, sorted_scalar]
  | array items ih =>
    rw [sorted_array, sorted_array, List.map_map]
    exact congrArg array (List.map_congr_left ih)
  | dict entries ih =>
    have hinner : ((sortEntries entries).map fun e => (e.1, e.2.sorted.sorted)) =
        (sortEntries entries).map fun e => (e.1, e.2.sorted) :=
      List.map_congr_left fun e he => by rw [ih e ((sortEntries_perm entries).mem_iff.mp he)]
    rw [sorted_dict, sorted_dict, sortEntries_map_sorted, sortEntries_sortEntries,
      sortEntries_map_sorted, List.map_map]
    exact congrArg dict hinner
  | back k => rfl

/-! ## Setting entries -/

theorem keys_setEntry {entries : List (Scalar × Value)} {t : Text} {v : Value}
    (h : ∀ e ∈ entries, ∃ u, e.1 = .text u) : (setEntry entries (.text t) v).map (·.1) =
      if .text t ∈ entries.map (·.1) then entries.map (·.1) else entries.map (·.1) ++ [.text t] := by
  induction entries with
  | nil => rfl
  | cons e es ih =>
    obtain ⟨k, w⟩ := e
    obtain ⟨u, rfl⟩ : ∃ u, k = .text u := h (k, w) List.mem_cons_self
    rw [setEntry, Scalar.sameKey_text]
    -- the first entry has the key, or it is looked for in the rest
    by_cases hut : u = t
    · rw [hut, decide_eq_true rfl, if_pos rfl, if_pos]
      · rfl
      · exact List.mem_cons_self
    · have hne : (Scalar.text t) ≠ .text u := fun e => hut (Scalar.text.inj e).symm
      rw [decide_eq_false hut, if_neg Bool.false_ne_true, List.map_cons, List.map_cons,
        ih fun e he => h e (List.mem_cons_of_mem _ he)]
      simp only [List.mem_cons, hne, false_or]
      split_ifs <;> rfl

/-- Setting an entry keeps what is said about all keys and all values. -/
theorem textKeys_setEntry {Q : Text → Prop} {entries : List (Scalar × Value)} {t : Text} {v : Value}
    (h : TextKeys Q (entries.map (·.1))) (ht : Q t) :
    TextKeys Q ((setEntry entries (.text t) v).map (·.1)) := by
  have htext : ∀ e ∈ entries, ∃ u, e.1 = .text u := by
    intro e he
    obtain ⟨u, hu, -⟩ := h.text e.1 (List.mem_map_of_mem he)
    exact ⟨u, hu⟩
  rw [keys_setEntry htext]
  split_ifs with hmem
  · exact h
  · refine ⟨List.nodup_append.mpr ⟨h.nodup, List.nodup_singleton _, ?_⟩, fun k hk => ?_⟩
    · intro a ha b hb hab
      rw [List.mem_singleton.mp hb] at hab
      exact hmem (hab ▸ ha)
    · rcases List.mem_append.mp hk with hk | hk
      · exact h.text k hk
      · exact ⟨t, List.mem_singleton.mp hk, ht⟩

theorem mem_setEntry {entries : List (Scalar × Value)} {key : Scalar} {v : Value}
    {e : Scalar × Value} (h : e ∈ setEntry entries key v) : e.2 = v ∨ ∃ e' ∈ entries, e.2 = e'.2 := by
  induction entries with
  | nil => exact .inl (congrArg Prod.snd (List.mem_singleton.mp h))
  | cons f es ih =>
    rw [setEntry] at h
    split at h
    · rcases List.mem_cons.mp h with rfl | h
      · exact .inl rfl
      · exact .inr ⟨e, List.mem_cons_of_mem _ h, rfl⟩
    · rcases List.mem_cons.mp h with rfl | h
      · exact .inr ⟨f, List.mem_cons_self, rfl⟩
      · rcases ih h with h | ⟨e', he', h⟩
        · exact .inl h
        · exact .inr ⟨e', List.mem_cons_of_mem _ he', h⟩

/-- The items of an array that is being read stand in reverse. -/
theorem Over.push {P : Scalar → Prop} {K : List Scalar → Prop} {items : List Value} {v : Value}
    (h : (Value.array items.reverse).Over P K) (hv : v.Over P K) :
    (Value.array (v :: items).reverse).Over P K := by
  rw [List.reverse_cons]
  exact .array (List.forall_mem_append.mpr ⟨over_array_iff.mp h, List.forall_mem_singleton.mpr hv⟩)

theorem over_dict_nil {P : Scalar → Prop} {Q : Text → Prop} : (dict []).Over P (TextKeys Q) :=
  .dict ⟨List.nodup_nil, List.forall_mem_nil _⟩ (List.forall_mem_nil _)

/-- Setting an entry under a text keeps the keys apart. -/
theorem Over.setEntry {P : Scalar → Prop} {Q : Text → Prop} {entries : List (Scalar × Value)}
    {t : Text} {v : Value} (h : (Value.dict entries).Over P (TextKeys Q)) (ht : Q t)
    (hv : v.Over P (TextKeys Q)) :
    (Value.dict (Value.setEntry entries (.text t) v)).Over P (TextKeys Q) := by
  obtain ⟨hkeys, hvalues⟩ := over_dict_iff.mp h
  refine .dict (textKeys_setEntry hkeys ht) fun e he => ?_
  rcases mem_setEntry he with heq | ⟨f, hf, heq⟩
  · rw [heq]
    exact hv
  · rw [heq]
    exact hvalues f hf

/-- An entry with a new key goes to the end. -/
theorem setEntry_of_not_mem {entries : List (Scalar × Value)} {t : Text} {v : Value}
    (h : ∀ e ∈ entries, ∃ u, e.1 = .text u ∧ u ≠ t) :
    setEntry entries (.text t) v = entries ++ [(.text t, v)] := by
  induction entries with
  | nil => rfl
  | cons e es ih =>
    obtain ⟨k, w⟩ := e
    obtain ⟨u, rfl, hne⟩ : ∃ u, k = .text u ∧ u ≠ t := h (k, w) List.mem_cons_self
    rw [setEntry, Scalar.sameKey_text, decide_eq_false hne, if_neg Bool.false_ne_true,
      ih fun e he => h e (List.mem_cons_of_mem _ he)]
    rfl

/-- Setting entries with new keys puts them at the end. -/
theorem foldl_setEntry_of_textKeys {Q : Text → Prop} {es done : List (Scalar × Value)}
    (h : TextKeys Q ((done ++ es).map (·.1))) :
    es.foldl (fun es e => setEntry es e.1 e.2) done = done ++ es := by
  induction es generalizing done with
  | nil => rw [List.foldl_nil, List.append_nil]
  | cons e es ih =>
    obtain ⟨t, ht, -⟩ := h.text e.1 (List.mem_map_of_mem (by simp))
    have hnew : setEntry done e.1 e.2 = done ++ [e] := by
      rw [ht, setEntry_of_not_mem, ← ht]
      intro f hf
      obtain ⟨u, hu, -⟩ := h.text f.1 (List.mem_map_of_mem (List.mem_append_left _ hf))
      refine ⟨u, hu, ?_⟩
      rintro rfl
      have hnodup := h.nodup
      rw [List.map_append, List.nodup_append] at hnodup
      exact hnodup.2.2 f.1 (List.mem_map_of_mem hf) e.1 List.mem_cons_self (hu.trans ht.symm)
    rw [List.append_cons] at h ⊢
    rw [List.foldl_cons, hnew, ih h]

/-- Entries with distinct keys are a dictionary as they are. -/
theorem ofEntries_of_textKeys {Q : Text → Prop} {entries : List (Scalar × Value)}
    (h : TextKeys Q (entries.map (·.1))) : ofEntries entries = .dict entries :=
  congrArg dict (@foldl_setEntry_of_textKeys Q entries [] h)

end Value

end PropertyList
