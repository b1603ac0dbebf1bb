/-
  PropertyList.Proofs.Xml.Items

  What the elements of a document hold, and what they mean.  A dictionary is well
  structured if keys and values alternate in it, and it means what results from
  setting these pairs in their order.
-/
import PropertyList.Xml.Reader

namespace PropertyList.Xml

/-! ## Items -/

/-- What an element of a property list holds. -/
inductive Item where
  | key (text : List Char)
  | scalar (e : Element) (text : List Char)
  | array (items : List Item)
  | dict (parts : List Item)

/-- The elements that stand for a scalar. -/
def Element.IsScalar (e : Element) : Prop := e ≠ .array ∧ e ≠ .dict ∧ e ≠ .key

instance (e : Element) : Decidable e.IsScalar := by unfold Element.IsScalar; infer_instance

/-- The scalar that the text of an element stands for. -/
def Element.scalar? (e : Element) (text : List Char) : Option Scalar :=
  match e with
  | .string => some (.text (Text.ofChars text))
  | .integer => (Integer.ofText? (Text.ofChars text)).map .int
  | .real => (Binary64.ofText? (Text.ofChars text)).map .real
  | .data => (Base64.decode? text).map .data
  | .date => (DateTime.ofChars? text).map .date
  | .true => some (.bool Bool.true)
  | .false => some (.bool Bool.false)
  | .array | .dict | .key => none

namespace Item

/-- Whether an item is the key of an entry. -/
def isKey : Item → Bool
  | key _ => true
  | _ => false

mutual

/-- The value of an item; a key is none. -/
def value? : Item → Option Value
  | key _ => none
  | scalar e text => (e.scalar? text).map .scalar
  | array items => (values? items).map .array
  | dict parts => (entries? none parts).map .ofEntries

/-- The values of items, if all of them have one. -/
def values? : List Item → Option (List Value)
  | [] => some []
  | i :: items => i.value?.bind fun v => (values? items).map (v :: ·)

/-- The entries of a dictionary, whose keys and values alternate.  A key may be waiting for its
    value. -/
def entries? : Option Text → List Item → Option (List (Scalar × Value))
  | none, [] => some []
  | none, key text :: parts => entries? (some (Text.ofChars text)) parts
  | none, _ :: _ => none
  | some _, [] => none
  | some k, i :: parts => i.value?.bind fun v => (entries? none parts).map ((.text k, v) :: ·)

end

/-- Keys and values take turns, a key first and a value last. -/
inductive Alternates : List Item → Prop where
  | nil : Alternates []
  | pair (text : List Char) {v : Item} {parts : List Item} (hv : v.isKey = false)
      (h : Alternates parts) : Alternates (key text :: v :: parts)

/-- Every empty key has a value right behind it. -/
def PairsEmptyKeys (parts : List Item) : Prop :=
  ∀ before after, parts = before ++ key [] :: after →
    ∃ v rest, after = v :: rest ∧ v.isKey = false

/-- A dictionary with given parts is among items or inside of one. -/
inductive HoldsDict (parts : List Item) : List Item → Prop where
  | here {items : List Item} (h : dict parts ∈ items) : HoldsDict parts items
  | inArray {items inner : List Item} (h : array inner ∈ items) (hinner : HoldsDict parts inner) :
      HoldsDict parts items
  | inDict {items inner : List Item} (h : dict inner ∈ items) (hinner : HoldsDict parts inner) :
      HoldsDict parts items

/-- Induction over an item, where all parts of a container come before it. -/
@[elab_as_elim]
theorem induct {motive : Item → Prop} (key : ∀ text, motive (.key text))
    (scalar : ∀ e text, motive (.scalar e text))
    (array : ∀ items, (∀ i ∈ items, motive i) → motive (.array items))
    (dict : ∀ parts, (∀ i ∈ parts, motive i) → motive (.dict parts)) (i : Item) : motive i := by
  refine @Item.rec motive (fun items => ∀ i ∈ items, motive i) key scalar array dict ?_ ?_ i
  · simp
  · intro i items hi hitems j hj
    rcases List.mem_cons.mp hj with rfl | hj
    · exact hi
    · exact hitems j hj

/-! ## Structure -/

variable {i : Item} {items parts inner : List Item} {w : Option Text}

theorem isKey_eq_false_of_value? {v : Value} (h : i.value? = some v) : i.isKey = false := by
  cases i with
  | key text => cases h
  | _ => rfl

theorem exists_of_isKey (h : i.isKey = true) : ∃ text, i = key text := by
  cases i with
  | key text => exact ⟨text, rfl⟩
  | _ => cases h

theorem HoldsDict.mono (h : HoldsDict parts items) (hsub : ∀ i ∈ items, i ∈ inner) :
    HoldsDict parts inner := by
  cases h with
  | here h => exact .here (hsub _ h)
  | inArray h hinner => exact .inArray (hsub _ h) hinner
  | inDict h hinner => exact .inDict (hsub _ h) hinner

/-- What is known of the parts of a dictionary that has entries. -/
structure HasEntries (w : Option Text) (parts : List Item) : Prop where
  alternates : w = none → Alternates parts
  /-- A key that is waiting has its value. -/
  value : ∀ k, w = some k → ∃ v rest, parts = v :: rest ∧ v.isKey = false ∧ Alternates rest
  values : ∀ i ∈ parts, i.isKey = false → i.value?.isSome = true

theorem hasEntries_of_entries? {es : List (Scalar × Value)} (h : entries? w parts = some es) :
    HasEntries w parts := by
  induction parts generalizing w es with
  | nil =>
    cases w with
    | none => exact ⟨fun _ => .nil, by rintro k ⟨⟩, List.forall_mem_nil _⟩
    | some k => cases h
  | cons i parts ih =>
    cases w with
    | none =>
      cases i with
      | key text =>
        -- the key waits, so the next part is its value
        have hrest := ih h
        obtain ⟨v, rest, rfl, hv, halt⟩ := hrest.value _ rfl
        refine ⟨fun _ => .pair text hv halt, by rintro k ⟨⟩, ?_⟩
        exact List.forall_mem_cons.mpr ⟨by rintro ⟨⟩, hrest.values⟩
      | _ => cases h
    | some k =>
      obtain ⟨v, hv, h⟩ := Option.bind_eq_some_iff.mp h
      obtain ⟨rest, hrest, -⟩ := Option.map_eq_some_iff.mp h
      have htail := ih hrest
      refine ⟨by rintro ⟨⟩, fun _ _ => ⟨i, parts, rfl, isKey_eq_false_of_value? hv,
        htail.alternates rfl⟩, List.forall_mem_cons.mpr ⟨fun _ => ?_, htail.values⟩⟩
      rw [hv]
      rfl

theorem values_of_values? {vs : List Value} (h : values? items = some vs) :
    ∀ i ∈ items, i.value?.isSome = true := by
  induction items generalizing vs with
  | nil => exact List.forall_mem_nil _
  | cons i items ih =>
    obtain ⟨v, hv, h⟩ := Option.bind_eq_some_iff.mp h
    obtain ⟨rest, hrest, -⟩ := Option.map_eq_some_iff.mp h
    exact List.forall_mem_cons.mpr ⟨by rw [hv]; rfl, ih hrest⟩

/-- Every dictionary in items that have values alternates. -/
theorem HoldsDict.alternates (h : HoldsDict parts items)
    (hvalues : ∀ i ∈ items, i.isKey = false → i.value?.isSome = true) : Alternates parts := by
  have hdict {items parts : List Item} (hmem : dict parts ∈ items)
      (hvalues : ∀ i ∈ items, i.isKey = false → i.value?.isSome = true) :
      HasEntries none parts := by
    obtain ⟨v, hv⟩ := Option.isSome_iff_exists.mp (hvalues _ hmem rfl)
    obtain ⟨es, hes, -⟩ := Option.map_eq_some_iff.mp hv
    exact hasEntries_of_entries? hes
  induction h with
  | here hmem => exact (hdict hmem hvalues).alternates rfl
  | inArray hmem _ ih =>
    obtain ⟨v, hv⟩ := Option.isSome_iff_exists.mp (hvalues _ hmem rfl)
    obtain ⟨vs, hvs, -⟩ := Option.map_eq_some_iff.mp hv
    exact ih fun i hi _ => values_of_values? hvs i hi
  | inDict hmem _ ih => exact ih (hdict hmem hvalues).values

theorem Alternates.pairsEmptyKeys (h : Alternates parts) : PairsEmptyKeys parts := by
  intro before after hparts
  induction h generalizing before with
  | nil => exact absurd hparts.symm (by simp)
  | @pair text v parts hv _ ih =>
    match before with
    | [] => exact ⟨v, parts, (List.cons.inj hparts).2.symm, hv⟩
    | [_] =>
      obtain ⟨rfl, -⟩ := List.cons.inj (List.cons.inj hparts).2
      cases hv
    | _ :: _ :: before => exact ih before (List.cons.inj (List.cons.inj hparts).2).2

theorem PairsEmptyKeys.tail (h : PairsEmptyKeys (i :: parts)) : PairsEmptyKeys parts :=
  fun before after hparts => h (i :: before) after (by rw [hparts]; rfl)

theorem entries?_append {q : List Item} {es : List (Scalar × Value)}
    (h : entries? w (parts ++ q) = some es) (hq : ∀ i ∈ q.head?, i.isKey = true) :
    ∃ fs gs, entries? w parts = some fs ∧ entries? none q = some gs ∧ es = fs ++ gs := by
  induction parts generalizing w es with
  | nil =>
    cases w with
    | none => exact ⟨[], es, rfl, h, rfl⟩
    | some k =>
      -- what follows does not start with the value that the key waits for
      obtain ⟨v, rest, rfl, hv, -⟩ := (hasEntries_of_entries? h).value k rfl
      exact absurd (hq v rfl) (by rw [hv]; decide)
  | cons i parts ih =>
    cases w with
    | none =>
      cases i with
      | key text => exact ih h
      | _ => cases h
    | some k =>
      obtain ⟨v, hv, h⟩ := Option.bind_eq_some_iff.mp h
      obtain ⟨rest, hrest, rfl⟩ := Option.map_eq_some_iff.mp h
      obtain ⟨fs, gs, hfs, hgs, rfl⟩ := ih hrest
      refine ⟨(.text k, v) :: fs, gs, ?_, hgs, rfl⟩
      rw [entries?, hv, hfs]
      rfl

end Item

end PropertyList.Xml
