/-
  PropertyList.Proofs.Xml.Faults

  The XML writer decides which trees XML can express.  Where it gives no lines, it
  meets a scalar or a key without a form, or too many containers in each other.
-/
import PropertyList.Proofs.Expressible
import PropertyList.Proofs.Xml.Containers

namespace PropertyList.Xml

variable {sortKeys : Bool} {level : Nat} {v : Value} {f : WriteFault}

/-- What is known of a fault in writing a tree with `level` containers around it. -/
structure Blames (v : Value) (level : Nat) (f : WriteFault) : Prop where
  deep : f = .tooDeep → ¬ v.IsTree ∨ writeDepth < level + v.depth
  range : ∀ n, f = .outOfRange n → v.Mentions (.int n)

/-! ## Parts of containers -/

/-- A fault in an item is a fault in the array. -/
theorem Blames.item {items : List Value} (h : Blames v (level + 1) f) (hv : v ∈ items) :
    Blames (.array items) level f where
  deep := by
    intro hf
    rcases h.deep hf with hback | hdeep
    · refine .inl fun htree => hback ?_
      cases htree with
      | array hitems => exact hitems v hv
    · have hlt := Value.depth_lt_of_mem_array hv
      exact .inr (by omega)
  range := fun n hf => .item hv (h.range n hf)

/-- A fault in a value is a fault in the dictionary. -/
theorem Blames.value {entries : List (Scalar × Value)} {e : Scalar × Value}
    (h : Blames e.2 (level + 1) f) (he : e ∈ entries) : Blames (.dict entries) level f where
  deep := by
    intro hf
    rcases h.deep hf with hback | hdeep
    · refine .inl fun htree => hback ?_
      cases htree with
      | dict _ hentries => exact hentries e he
    · have hlt := Value.depth_lt_of_mem_dict he
      exact .inr (by omega)
  range := fun n hf => .value he (h.range n hf)

/-! ## Scalars -/

/-- A text is written if it can be encoded and has no control characters. -/
theorem decides_stringLine (indent : Nat) (name : String) (t : Text) :
    Decides (Encoding.xml.HasForm (.text t)) (Blames v level) (stringLine indent name t) := by
  rw [stringLine]
  split
  · next hcontrol =>
    refine .error ?_ ⟨by rintro ⟨⟩, by rintro n ⟨⟩⟩
    rintro ⟨-, hplain⟩
    obtain ⟨c, hc, hcontrol⟩ := List.any_eq_true.mp hcontrol
    rw [hplain c hc] at hcontrol
    cases hcontrol
  · next hplain =>
    -- without control characters, only a surrogate keeps the text from being encoded
    cases hcs : t.chars? with
    | some cs =>
      refine .ok ⟨⟨cs, Text.chars?_eq_some hcs⟩, ?_⟩
      intro c hc
      exact Bool.eq_false_iff.mpr fun hcontrol => hplain (List.any_eq_true.mpr ⟨c, hc, hcontrol⟩)
    | none =>
      refine .error ?_ ⟨by rintro ⟨⟩, by rintro n ⟨⟩⟩
      rintro ⟨⟨cs, rfl⟩, -⟩
      rw [Text.chars?_ofChars] at hcs
      cases hcs

theorem decides_scalarLines (level : Nat) (s : Scalar) :
    Decides (Encoding.xml.HasForm s) (Blames (.scalar s) level) (scalarLines level s) := by
  cases s with
  | null => exact .error id ⟨by rintro ⟨⟩, by rintro n ⟨⟩⟩
  | bool b => cases b <;> exact .ok trivial
  | int n =>
    refine Decides.ite (p := -0x8000000000000000 ≤ n ∧ n < 0x10000000000000000) fun _ => ?_
    refine ⟨by rintro ⟨⟩, ?_⟩
    rintro m ⟨⟩
    exact .scalar _
  | real x => exact .ok trivial
  | text t => exact (decides_stringLine level "string" t).map
  | data bytes => exact .ok trivial
  | date t => exact .ok trivial
  | uid n => exact .error id ⟨by rintro ⟨⟩, by rintro n ⟨⟩⟩

/-! ## Containers -/

/-- The items of an array are written if each of them is. -/
theorem decides_itemLines {P : Value → Prop} {F : WriteFault → Prop} {items : List Value}
    (h : ∀ v ∈ items, Decides (P v) F (lines sortKeys (level + 1) v)) :
    Decides (∀ v ∈ items, P v) F (itemLines sortKeys level items) := by
  induction items with
  | nil => exact .ok (List.forall_mem_nil _)
  | cons v vs ih =>
    rw [itemLines]
    have hrest := ih fun w hw => h w (List.mem_cons_of_mem _ hw)
    refine ((h v List.mem_cons_self).bind fun first _ _ => hrest.map).congr ?_
    rw [List.forall_mem_cons]

theorem ordered_eq {α : Type} (entries : List (Scalar × α)) : ordered sortKeys entries =
    if sortKeys then
      (Scalar.sortByKey? (fun e => e.1) entries).elim (.error .unorderedKeys) .ok
    else .ok entries := by
  rw [ordered]
  cases Scalar.sortByKey? (fun e : Scalar × α => e.1) entries <;> rfl

/-- A key that can be written. -/
def IsKey (k : Scalar) : Prop := k.text?.isSome = true ∧ Encoding.xml.HasForm k

/-- An entry is written if its key can be, and its value is. -/
theorem decides_member {P : Prop} {value : Except WriteFault (List Line)} (key : Scalar)
    (h : Decides P (Blames v level) value) :
    Decides (IsKey key ∧ P) (Blames v level) (memberLines level (key, value)) := by
  rw [memberLines]
  by_cases htext : key.text?.isSome = true
  · rw [Scalar.eq_text_keyText htext]
    refine ((decides_stringLine (level + 1) "key" key.keyText).bind fun line _ _ =>
      h.bind fun body _ _ => .ok trivial).congr ?_
    simp [IsKey, Scalar.text?]
  · have hnone : key.text? = none := by simpa using htext
    rw [hnone]
    exact .error (fun h => htext h.1.1) ⟨by rintro ⟨⟩, by rintro n ⟨⟩⟩

/-- A dictionary is written if its keys can be and each of its values is. -/
theorem decides_dict {P : Value → Prop} {entries : List (Scalar × Value)}
    (hlevel : level < writeDepth)
    (h : ∀ e ∈ entries, Decides (P e.2) (Blames (.dict entries) level)
      (lines sortKeys (level + 1) e.2)) :
    Decides (Encoding.xml.HasKeys sortKeys (entries.map (·.1)) ∧ ∀ e ∈ entries, P e.2)
      (Blames (.dict entries) level) (lines sortKeys level (.dict entries)) := by
  have hnone : Blames (.dict entries) level .unorderedKeys := ⟨by rintro ⟨⟩, by rintro n ⟨⟩⟩
  rw [lines, if_neg (by omega), entryLines_eq, ordered_eq, ← bind_assoc]
  refine Decides.congr (Decides.bind (Decides.entries (K := IsKey) (Q := P) sortKeys entries
    (lines sortKeys (level + 1)) hnone ?_)
    fun _ _ _ => .ok trivial) ?_
  · exact fun e he => decides_member e.1 (h e he)
  · rw [and_true]
    refine and_congr_left fun _ => ?_
    -- keys that can be written are text, and they have a form as all text does
    constructor
    · rintro ⟨horder, hkeys⟩
      exact ⟨fun k hk => (hkeys k hk).2, fun k hk => .inr (hkeys k hk).1, horder⟩
    · intro hkeys
      refine ⟨hkeys.order, fun k hk => ⟨?_, hkeys.form k hk⟩⟩
      exact (hkeys.text k hk).resolve_left (by decide)

/-- The XML writer decides which trees can be expressed, as far as its depth allows. -/
theorem decides_lines (v : Value) (hlevel : level ≤ writeDepth) :
    Decides (Encoding.xml.Expresses sortKeys v ∧ level + v.depth ≤ writeDepth) (Blames v level)
      (lines sortKeys level v) := by
  induction v using Value.induct generalizing level with
  | scalar s =>
    rw [lines]
    refine (decides_scalarLines level s).congr ?_
    rw [Encoding.Expresses, Value.over_scalar_iff]
    exact ⟨fun h => ⟨h, hlevel⟩, fun h => h.1⟩
  | array items ih =>
    by_cases hroom : level < writeDepth
    · rw [lines, if_neg (by omega), Encoding.Expresses, Value.over_array_iff,
        Value.add_depth_array_le_iff hroom, ← forall₂_and]
      exact (decides_itemLines fun v hv => (ih v hv hroom).mono fun f hf => hf.item hv).map
    -- there is no room for the array, and so the fault is that of the depth
    · have hdeep := Value.lt_add_depth_array items (not_lt.mp hroom)
      rw [lines, if_pos (not_lt.mp hroom)]
      exact .error (fun h => by omega) ⟨fun _ => .inr hdeep, by rintro n ⟨⟩⟩
  | dict entries ih =>
    by_cases hroom : level < writeDepth
    · rw [Encoding.Expresses, Value.over_dict_iff, Value.add_depth_dict_le_iff hroom, and_assoc,
        ← forall₂_and]
      refine decides_dict (P := fun w => Encoding.xml.Expresses sortKeys w ∧
        level + 1 + w.depth ≤ writeDepth) hroom fun e he => ?_
      exact (ih e he hroom).mono fun f hf => hf.value he
    · have hdeep := Value.lt_add_depth_dict entries (not_lt.mp hroom)
      rw [lines, if_pos (not_lt.mp hroom)]
      exact .error (fun h => by omega) ⟨fun _ => .inr hdeep, by rintro n ⟨⟩⟩
  | back k =>
    rw [lines]
    refine .error ?_ ⟨fun _ => .inl Value.not_over_back, by rintro n ⟨⟩⟩
    exact fun h => Value.not_over_back h.1

/-- XML is written of the trees that it can express, as far as the depth of the writer allows. -/
theorem decides_write (sortKeys : Bool) (v : Value) :
    Decides (Encoding.xml.Expresses sortKeys v ∧ v.depth ≤ writeDepth) (Blames v 0)
      (write sortKeys v) := by
  refine ((decides_lines v (Nat.zero_le _)).bind fun ls _ _ => .ok trivial).congr ?_
  rw [and_true, Nat.zero_add]

end PropertyList.Xml
