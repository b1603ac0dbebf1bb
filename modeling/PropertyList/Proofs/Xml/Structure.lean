/-
  PropertyList.Proofs.Xml.Structure

  The dictionaries of a document.  An item is taken as its value, and not at all
  without one, as long as every empty key has a value behind it; so keys and values
  alternate in every dictionary that is read.  An empty key without a value is
  passed over.
-/
import PropertyList.Proofs.Conversion.Refusal
import PropertyList.Proofs.Xml.RoundTrip
import PropertyList.Proofs.Xml.Taking

namespace PropertyList.Xml

/-! ## Values -/

/-- An item with a value is taken as that value, and one without a value is not taken. -/
def Item.IsTaken (i : Item) : Prop :=
  ∀ b : Builder, b.chars = [] → i.take? b = i.value?.bind fun v => (b.add v).toOption

namespace Builder

/-- The builder stands in an array or outside of all containers, where values come without keys. -/
structure Collects (b : Builder) : Prop where
  key : b.key = none
  chars : b.chars = []
  stack : ∀ entries k outer, b.stack ≠ ⟨.dict entries, k⟩ :: outer

variable {b : Builder}

theorem Collects.accepts (h : b.Collects) : b.accepts = .ok () := by
  obtain ⟨stack, key, chars, root⟩ := b
  obtain ⟨rfl, -, hstack⟩ := h
  match stack with
  | [] => rfl
  | ⟨.array _, _⟩ :: _ => rfl
  | ⟨.dict _, _⟩ :: _ => exact absurd rfl (hstack _ _ _)

theorem Collects.holding (h : b.Collects) (v : Value) : (b.holding v []).Collects := by
  obtain ⟨stack, key, chars, root⟩ := b
  obtain ⟨rfl, rfl, hstack⟩ := h
  match stack with
  | [] => exact ⟨rfl, rfl, by rintro _ _ _ ⟨⟩⟩
  | ⟨.array _, _⟩ :: _ => exact ⟨rfl, rfl, by rintro _ _ _ ⟨⟩⟩
  | ⟨.dict _, _⟩ :: _ => exact absurd rfl (hstack _ _ _)

/-- A key belongs into a dictionary. -/
theorem Collects.take?_key (h : b.Collects) (text : List Char) :
    (Item.key text).take? b = none := by
  obtain ⟨stack, key, chars, root⟩ := b
  obtain ⟨rfl, -, hstack⟩ := h
  match stack with
  | [] => rfl
  | ⟨.array _, _⟩ :: _ => rfl
  | ⟨.dict _, _⟩ :: _ => exact absurd rfl (hstack _ _ _)

theorem toOption_add (haccepts : b.accepts = .ok ()) (hchars : b.chars = []) (v : Value) :
    (b.add v).toOption = some (b.holding v []) := by
  obtain ⟨stack, key, chars, root⟩ := b
  obtain rfl := hchars
  have h := add_chars (v := v) haccepts []
  rw [h]
  rfl

/-- Where values come without keys, items are taken one behind the other. -/
theorem Collects.takeAll?_eq {items : List Item} (hb : b.Collects)
    (h : ∀ i ∈ items, i.isKey = false → i.IsTaken) :
    Item.takeAll? items b =
      (Item.values? items).map (List.foldl (fun b v => b.holding v []) b) := by
  induction items generalizing b with
  | nil => rfl
  | cons i items ih =>
    have hrest := fun j hj => h j (List.mem_cons_of_mem _ hj)
    rw [Item.takeAll?, Item.values?]
    cases hkey : i.isKey with
    | true =>
      obtain ⟨text, rfl⟩ := Item.exists_of_isKey hkey
      -- a key is refused outside of a dictionary, and it has no value
      rw [hb.take?_key]
      rfl
    | false =>
      rw [h i List.mem_cons_self hkey b hb.chars]
      cases i.value? with
      | none => rfl
      | some v =>
        rw [Option.bind_some, toOption_add hb.accepts hb.chars, Option.bind_some, Option.bind_some,
          ih (hb.holding v) hrest, Option.map_map]
        rfl

theorem foldl_holding_array (vs acc : List Value) (k : Option Text) (outer : List Open)
    (root : Option Value) :
    vs.foldl (fun (b : Builder) v => b.holding v []) ⟨⟨.array acc, k⟩ :: outer, none, [], root⟩ =
      ⟨⟨.array (vs.reverse ++ acc), k⟩ :: outer, none, [], root⟩ := by
  induction vs generalizing acc with
  | nil => rfl
  | cons v vs ih =>
    rw [List.reverse_cons, List.append_assoc]
    exact ih (v :: acc)

theorem foldl_holding_root (vs : List Value) (root : Option Value) :
    vs.foldl (fun (b : Builder) v => b.holding v []) ⟨[], none, [], root⟩ =
      ⟨[], none, [], vs.getLast?.or root⟩ := by
  induction vs generalizing root with
  | nil => rfl
  | cons v vs ih =>
    rw [List.getLast?_cons]
    refine (ih (some v)).trans ?_
    cases vs.getLast? <;> rfl

/-- A container is taken if its content is, and adds its value. -/
theorem within?_eq {e : Element} {before : Content} {content : Builder → Option Builder}
    {x : Option Value} (hchars : b.chars = [])
    (hstart : ∀ b : Builder, b.startTag (some e) = ({ b with chars := [] } : Builder).opened before)
    (hcontent : (content ⟨⟨before, b.key⟩ :: b.stack, none, [], b.root⟩).bind
      (fun b => (b.endTag (some e)).toOption) = x.map fun v => b.holding v []) :
    b.within? e content = x.bind fun v => (b.add v).toOption := by
  obtain ⟨stack, key, chars, root⟩ := b
  obtain rfl := hchars
  rw [within?, hstart]
  cases haccepts : accepts ⟨stack, key, [], root⟩ with
  | error m =>
    -- where nothing is accepted, a container is refused at its start and its value at its end
    have hadd (v : Value) : (add ⟨stack, key, [], root⟩ v).toOption = none := by
      rw [add, haccepts]
      rfl
    rw [opened, haccepts]
    cases x with
    | none => rfl
    | some v => exact (hadd v).symm
  | ok =>
    rw [opened_eq haccepts]
    refine hcontent.trans ?_
    cases x with
    | none => rfl
    | some v => exact (toOption_add haccepts rfl v).symm

end Builder

namespace Item

variable {i : Item} {items parts : List Item}

theorem isTaken_array (h : ∀ i ∈ items, i.isKey = false → i.IsTaken) : (array items).IsTaken := by
  intro b hchars
  have hstart (b : Builder) : b.startTag (some .array) =
      ({ b with chars := [] } : Builder).opened (.array []) := rfl
  refine Builder.within?_eq hchars hstart ?_
  have hcollects : Builder.Collects ⟨⟨.array [], b.key⟩ :: b.stack, none, [], b.root⟩ :=
    ⟨rfl, rfl, by rintro _ _ _ ⟨⟩⟩
  rw [hcollects.takeAll?_eq h]
  cases hvs : values? items with
  | none => rw [value?, hvs]; rfl
  | some vs =>
    rw [value?, hvs, Option.map_some, Option.bind_some, Builder.foldl_holding_array,
      List.append_nil]
    have hclosed := Builder.closed_eq b (.array vs.reverse) []
    rw [Content.value, List.reverse_reverse] at hclosed
    exact congrArg Except.toOption hclosed

/-! ## Dictionaries -/

section Dictionaries

variable {entries es : List (Scalar × Value)} {k w : Option Text} {outer : List Open}
  {root : Option Value}

/-- A key is taken in a dictionary unless a key other than the empty one waits. -/
theorem take?_key (hw : w = none ∨ w = some []) (text : List Char) :
    (key text).take? ⟨⟨.dict entries, k⟩ :: outer, w, [], root⟩ =
      some ⟨⟨.dict entries, k⟩ :: outer, some (Text.ofChars text), [], root⟩ := by
  have htext : [text].reverse.flatten = text := by simp
  rw [take?, Builder.setKey.eq_def]
  rcases hw with rfl | rfl
  · simp only [Builder.text, htext]
    rfl
  · simp only [Builder.text, htext]
    rfl

/-- A value is taken under the key that waits. -/
theorem IsTaken.entry (h : i.IsTaken) {v : Value} (hv : i.value? = some v) (t : Text) :
    i.take? ⟨⟨.dict entries, k⟩ :: outer, some t, [], root⟩ =
      some ⟨⟨.dict (Value.setEntry entries (.text t) v), k⟩ :: outer, none, [], root⟩ := by
  rw [h _ rfl, hv, Option.bind_some]
  exact Builder.toOption_add rfl rfl v

/-- Without a key, a value is not taken in a dictionary. -/
theorem IsTaken.refused (h : i.IsTaken) :
    i.take? ⟨⟨.dict entries, k⟩ :: outer, none, [], root⟩ = none := by
  rw [h _ rfl]
  cases i.value? <;> rfl

/-- Entries are set one after the other. -/
theorem takeAll?_entries (h : ∀ i ∈ parts, i.isKey = false → i.IsTaken)
    (hes : entries? w parts = some es) :
    takeAll? parts ⟨⟨.dict entries, k⟩ :: outer, w, [], root⟩ =
      some ⟨⟨.dict (es.foldl (fun es (k, v) => Value.setEntry es k v) entries), k⟩ :: outer,
        none, [], root⟩ := by
  induction parts generalizing w entries es with
  | nil =>
    cases w with
    | none => obtain rfl := Option.some.inj hes; rfl
    | some t => cases hes
  | cons i parts ih =>
    have hrest := fun j hj => h j (List.mem_cons_of_mem _ hj)
    rw [takeAll?]
    cases w with
    | none =>
      cases i with
      -- a key is put aside until its value comes
      | key text =>
        rw [take?_key (.inl rfl)]
        exact ih hrest hes
      | _ => cases hes
    | some t =>
      obtain ⟨v, hv, hes⟩ := Option.bind_eq_some_iff.mp hes
      obtain ⟨es, htail, rfl⟩ := Option.map_eq_some_iff.mp hes
      rw [(h i List.mem_cons_self (isKey_eq_false_of_value? hv)).entry hv]
      exact ih hrest htail

theorem takeAll?_append (items items' : List Item) (b : Builder) :
    takeAll? (items ++ items') b = (takeAll? items b).bind (takeAll? items') := by
  induction items generalizing b with
  | nil => rfl
  | cons i items ih =>
    rw [List.cons_append, takeAll?, takeAll?, Option.bind_assoc]
    exact congrArg _ (funext ih)

/-- A dictionary that is not well structured is not taken, at its end at the latest. -/
theorem takeAll?_of_entries?_eq_none (h : ∀ i ∈ parts, i.isKey = false → i.IsTaken)
    (hpairs : PairsEmptyKeys parts)
    (hw : w = some [] → ∃ v rest, parts = v :: rest ∧ v.isKey = false)
    (hes : entries? w parts = none) :
    (takeAll? parts ⟨⟨.dict entries, k⟩ :: outer, w, [], root⟩).bind
      (fun b => (b.endTag (some .dict)).toOption) = none := by
  induction parts generalizing w entries with
  | nil =>
    match w with
    | none => cases hes
    | some [] => obtain ⟨v, rest, ⟨⟩, -⟩ := hw rfl
    | some (_ :: _) => rfl
  | cons i parts ih =>
    have hrest := fun j hj => h j (List.mem_cons_of_mem _ hj)
    rw [takeAll?]
    cases hkey : i.isKey with
    | true =>
      obtain ⟨text, rfl⟩ := exists_of_isKey hkey
      match w with
      | none =>
        rw [take?_key (.inl rfl)]
        refine ih hrest hpairs.tail (fun htext => ?_) hes
        obtain rfl : text = [] := List.map_eq_nil_iff.mp (Option.some.inj htext)
        -- an empty key is taken for no key, so its value has to be there
        exact hpairs [] parts rfl
      | some [] =>
        obtain ⟨v, rest, hparts, hv⟩ := hw rfl
        obtain ⟨rfl, -⟩ := List.cons.inj hparts
        cases hv
      | some (_ :: _) => rfl
    | false =>
      have htaken := h i List.mem_cons_self hkey
      match w with
      -- a value without a key in front
      | none => rw [htaken.refused]; rfl
      | some t =>
        cases hv : i.value? with
        | none => rw [htaken _ rfl, hv]; rfl
        | some v =>
          rw [entries?, hv] at hes
          rw [htaken.entry hv]
          exact ih hrest hpairs.tail (by rintro ⟨⟩) (Option.map_eq_none_iff.mp hes)

theorem isTaken_dict (h : ∀ i ∈ parts, i.isKey = false → i.IsTaken)
    (hpairs : PairsEmptyKeys parts) : (dict parts).IsTaken := by
  intro b hchars
  have hstart (b : Builder) : b.startTag (some .dict) =
      ({ b with chars := [] } : Builder).opened (.dict []) := rfl
  refine Builder.within?_eq hchars hstart ?_
  cases hes : entries? none parts with
  | none =>
    rw [takeAll?_of_entries?_eq_none h hpairs (by rintro ⟨⟩) hes, value?, hes]
    rfl
  | some es =>
    rw [takeAll?_entries h hes, value?, hes]
    exact congrArg Except.toOption (Builder.closed_eq b (.dict _) [])

end Dictionaries

/-- An item whose empty keys have values is taken as its value. -/
theorem isTaken (i : Item) (hkey : i.isKey = false)
    (hpairs : ∀ parts, HoldsDict parts [i] → PairsEmptyKeys parts) : i.IsTaken := by
  induction i using induct with
  | key => cases hkey
  | scalar e text =>
    intro b _
    rw [take?, value?]
    cases e.scalar? text <;> rfl
  | array items ih =>
    refine isTaken_array fun i hi hkey => ih i hi hkey fun parts hparts => ?_
    exact hpairs parts (.inArray List.mem_cons_self
      (hparts.mono fun j hj => List.mem_singleton.mp hj ▸ hi))
  | dict inner ih =>
    refine isTaken_dict (fun i hi hkey => ih i hi hkey fun parts hparts => ?_)
      (hpairs inner (.here List.mem_cons_self))
    exact hpairs parts (.inDict List.mem_cons_self
      (hparts.mono fun j hj => List.mem_singleton.mp hj ▸ hi))

end Item

/-! ## Documents -/

/-- The bytes are a well-formed document with nothing but elements of property lists, and these
    hold the given items.  The root element is an item itself, or it is `plist`. -/
def IsDocument (bytes : List UInt8) (items : List Item) : Prop :=
  ∃ src events, Source.read bytes = .ok src ∧ Event.ofSource src = (events, none) ∧
    (Spells (events.map (·.kind)) items ∨
      ∃ inner, events.map (·.kind) = .startTag rootName :: (inner ++ [.endTag rootName]) ∧
        Spells inner items)

/-- Characters that are scanned without a fault. -/
theorem isDocument_encodeChars {cs : List Char} {items : List Item}
    (hsrc : Source.read (Utf8.encodeChars cs) = .ok (.ofChars cs))
    (hwhole : (Event.ofSource (.ofChars cs)).2 = none)
    (h : Spells ((Event.ofSource (.ofChars cs)).1.map (·.kind)) items ∨
      ∃ inner, (Event.ofSource (.ofChars cs)).1.map (·.kind) =
        .startTag rootName :: (inner ++ [.endTag rootName]) ∧ Spells inner items) :
    IsDocument (Utf8.encodeChars cs) items :=
  ⟨_, _, hsrc, Prod.ext rfl hwhole, h⟩

/-- The place of an event does not matter for what the builder makes of it. -/
theorem Builder.run?_kinds (src : Source) (events : List Event) (b : Builder) :
    (events.foldlM (fun b e => Builder.step src b e) b).toOption =
      run? (events.map (·.kind)) b := by
  induction events generalizing b with
  | nil => rfl
  | cons e events ih =>
    rw [List.map_cons, run?_cons, List.foldlM_cons, step]
    cases b.take e.kind with
    | ok b => exact ih b
    | error m => rfl

/-- The value of a document comes from what its events are, and there is none if they end with a
    fault. -/
theorem toOption_readDocument (src : Source) : (readDocument src).toOption =
    (Builder.run? ((Event.ofSource src).1.map (·.kind)) .start).bind fun b =>
      if (Event.ofSource src).2.isSome then none else b.root := by
  rw [readDocument, ← Builder.run?_kinds src]
  generalize Event.ofSource src = parsed
  obtain ⟨events, fault⟩ := parsed
  show (Except.bind (List.foldlM _ _ _) _).toOption = _
  dsimp only
  cases events.foldlM (fun b e => Builder.step src b e) .start with
  | error f => rfl
  | ok b =>
    obtain ⟨stack, key, chars, root⟩ := b
    cases fault <;> cases root <;> rfl

theorem toOption_eq_some_iff {ε α : Type} {x : Except ε α} {a : α} :
    x.toOption = some a ↔ x = .ok a := by
  cases x with
  | error e => exact iff_of_false (by rintro ⟨⟩) (by rintro ⟨⟩)
  | ok b => simp [Except.toOption]

theorem readDocument_eq_ok_iff {src : Source} {events : List Event} {v : Value}
    (h : Event.ofSource src = (events, none)) :
    readDocument src = .ok v ↔
      ∃ b, Builder.run? (events.map (·.kind)) .start = some b ∧ b.root = some v := by
  rw [← toOption_eq_some_iff, toOption_readDocument, h, Option.bind_eq_some_iff]
  rfl

variable {bytes : List UInt8} {items : List Item}

/-- A document is read as the last value that its items leave outside of all containers. -/
theorem read_eq_ok_iff_of_isDocument (h : IsDocument bytes items) {v : Value} :
    read bytes = .ok v ↔ ∃ b, Item.takeAll? items .start = some b ∧ b.root = some v := by
  obtain ⟨src, events, hsrc, hevents, hspells⟩ := h
  have hrun : (Builder.run? (events.map (·.kind)) .start).map Builder.bare =
      Item.takeAll? items .start := by
    rcases hspells with hspells | ⟨inner, hkinds, hspells⟩
    · exact hspells.agrees .start
    · -- the tags of the root element change nothing
      rw [hkinds, Builder.run?_cons, (Builder.take_root .start).1]
      have hinner : _ = Item.takeAll? items .start := hspells.agrees .start
      show (Builder.run? (inner ++ _) .start).map _ = _
      rw [Builder.run?_append, ← hinner]
      cases Builder.run? inner .start with
      | none => rfl
      | some b =>
        rw [Option.bind_some, Builder.run?_cons, (Builder.take_root b).2]
        rfl
  rw [read, hsrc, ← hrun]
  refine (readDocument_eq_ok_iff hevents).trans ?_
  cases Builder.run? (events.map (·.kind)) .start with
  | none => exact iff_of_false (by rintro ⟨b, ⟨⟩, -⟩) (by rintro ⟨b, ⟨⟩, -⟩)
  | some b =>
    constructor
    · rintro ⟨_, h, hv⟩
      exact ⟨_, congrArg (Option.map Builder.bare) h, hv⟩
    · rintro ⟨_, h, hv⟩
      refine ⟨b, rfl, ?_⟩
      rw [← hv, ← Option.some.inj h]
      rfl

/-- What a document is read as is the last value of its items, if all of them have one. -/
theorem read_eq_ok_iff_values? (h : IsDocument bytes items)
    (hpairs : ∀ parts, Item.HoldsDict parts items → Item.PairsEmptyKeys parts) {v : Value} :
    read bytes = .ok v ↔ ∃ vs, Item.values? items = some vs ∧ vs.getLast? = some v := by
  have hcollects : Builder.start.Collects := ⟨rfl, rfl, by rintro _ _ _ ⟨⟩⟩
  have htaken (i : Item) (hi : i ∈ items) (hkey : i.isKey = false) : i.IsTaken :=
    i.isTaken hkey fun parts hparts =>
      hpairs parts (hparts.mono fun j hj => List.mem_singleton.mp hj ▸ hi)
  rw [read_eq_ok_iff_of_isDocument h, hcollects.takeAll?_eq htaken]
  cases Item.values? items with
  | none => simp
  | some vs =>
    have hroot := Builder.foldl_holding_root vs none
    simp only [Option.map_some, Option.some.injEq, exists_eq_left', Builder.start, hroot,
      Option.or_none]

/-- An empty key that the end of a dictionary or another key follows is passed over. -/
theorem read_of_unpaired {before after : List Item} {es : List (Scalar × Value)}
    (h : IsDocument bytes [.dict (before ++ .key [] :: after)])
    (hafter : ∀ i ∈ after.head?, i.isKey = true)
    (hes : Item.entries? none (before ++ after) = some es) :
    read bytes = .ok (.ofEntries es) := by
  have htaken (i : Item) (hi : i ∈ before ++ after) (hkey : i.isKey = false) : i.IsTaken :=
    i.isTaken hkey fun parts hparts => by
      refine (hparts.alternates fun j hj hkey => ?_).pairsEmptyKeys
      exact (Item.hasEntries_of_entries? hes).values j (List.mem_singleton.mp hj ▸ hi) hkey
  have hbefore := fun i hi => htaken i (List.mem_append_left _ hi)
  have hrest := fun i hi => htaken i (List.mem_append_right _ hi)
  obtain ⟨fs, gs, hfs, hgs, rfl⟩ := Item.entries?_append hes hafter
  rw [read_eq_ok_iff_of_isDocument h]
  -- the dictionary is opened, filled and closed
  have htake : Item.takeAll? [.dict (before ++ .key [] :: after)] .start =
      ((Item.takeAll? (before ++ .key [] :: after) ⟨[⟨.dict [], none⟩], none, [], none⟩).bind
        fun b => (b.endTag (some .dict)).toOption).bind some := rfl
  rw [htake, Item.takeAll?_append, Item.takeAll?_entries hbefore hfs, Option.bind_some,
    Item.takeAll?, Item.take?_key (.inl rfl), Option.bind_some]
  cases after with
  | nil =>
    obtain rfl := Option.some.inj hgs
    rw [List.append_nil]
    exact ⟨_, rfl, rfl⟩
  | cons i after =>
    obtain ⟨text, rfl⟩ := Item.exists_of_isKey (hafter i rfl)
    -- the next key takes the place of the empty one
    have hfill : Item.takeAll? (.key text :: after)
        ⟨[⟨.dict (fs.foldl (fun es (k, v) => Value.setEntry es k v) []), none⟩], none, [], none⟩ =
          some _ := Item.takeAll?_entries hrest hgs
    rw [Item.takeAll?, Item.take?_key (.inl rfl)] at hfill
    have hempty : Text.ofChars [] = [] := rfl
    rw [hempty, Item.takeAll?, Item.take?_key (.inr rfl), hfill, ← List.foldl_append]
    exact ⟨_, rfl, rfl⟩

end Xml

namespace Encoding

open Xml Item

theorem failureClass_of_isDocument {bytes : List UInt8} {items : List Item} {f : ReadFailure}
    (hdoc : IsDocument bytes items) (h : xml.read bytes = .error f) : f.failureClass = .parse := by
  obtain ⟨src, -, hsrc, -⟩ := hdoc
  rw [read] at h
  split at h
  · cases h
  · next fault hread =>
    obtain rfl := Except.error.inj h
    rw [Xml.read, hsrc] at hread
    cases fault with
    | unknownCharset => exact absurd hread (readDocument_ne_unknown src)
    | _ => rfl

theorem xml_read_eq_ok_iff {bytes : List UInt8} {d : Document} :
    xml.read bytes = .ok d ↔
      ∃ v, Xml.read bytes = .ok v ∧ d = ⟨.only .xml, some (.ofValue v)⟩ := by
  rw [read]
  cases Xml.read bytes with
  | ok v => simp [eq_comm]
  | error f => simp

/-- A document of property list elements in which every empty key has a value is read exactly if
    its items have values, and so only if keys and values alternate in each of its dictionaries;
    a dictionary is then what results from setting its entries in their order.  An empty key
    without a value, in front of another key or of the end of the dictionary, is passed over. -/
theorem xml_read_structured {bytes : List UInt8} {items : List Item}
    (hdoc : IsDocument bytes items) :
    ((∀ parts, HoldsDict parts items → PairsEmptyKeys parts) →
      (∀ d, xml.read bytes = .ok d ↔ ∃ vs v, values? items = some vs ∧ vs.getLast? = some v ∧
        d = ⟨.only .xml, some (.ofValue v)⟩) ∧
      (∀ d, xml.read bytes = .ok d → ∀ parts, HoldsDict parts items → Alternates parts) ∧
      ∀ parts, HoldsDict parts items → ¬ Alternates parts →
        ∃ f, xml.read bytes = .error f ∧ f.failureClass = .parse) ∧
    ∀ before after es, items = [.dict (before ++ .key [] :: after)] →
      (∀ i ∈ after.head?, i.isKey = true) → entries? none (before ++ after) = some es →
        xml.read bytes = .ok ⟨.only .xml, some (.ofValue (.ofEntries es))⟩ := by
  refine ⟨fun hpairs => ?_, ?_⟩
  · have hread (d : Document) : xml.read bytes = .ok d ↔ ∃ vs v, values? items = some vs ∧
        vs.getLast? = some v ∧ d = ⟨.only .xml, some (.ofValue v)⟩ := by
      rw [xml_read_eq_ok_iff]
      constructor
      · rintro ⟨v, hv, rfl⟩
        obtain ⟨vs, hvs, hlast⟩ := (read_eq_ok_iff_values? hdoc hpairs).mp hv
        exact ⟨vs, v, hvs, hlast, rfl⟩
      · rintro ⟨vs, v, hvs, hlast, rfl⟩
        exact ⟨v, (read_eq_ok_iff_values? hdoc hpairs).mpr ⟨vs, hvs, hlast⟩, rfl⟩
    have halternates (d : Document) (h : xml.read bytes = .ok d) (parts : List Item)
        (hparts : HoldsDict parts items) : Alternates parts := by
      obtain ⟨vs, v, hvs, -⟩ := (hread d).mp h
      exact hparts.alternates fun i hi _ => values_of_values? hvs i hi
    refine ⟨hread, halternates, fun parts hparts hnot => ?_⟩
    cases h : xml.read bytes with
    | ok d => exact absurd (halternates d h parts hparts) hnot
    | error f => exact ⟨f, rfl, failureClass_of_isDocument hdoc h⟩
  · rintro before after es rfl hafter hes
    exact xml_read_of_ok (read_of_unpaired hdoc hafter hes)

/-- An empty key with a value, and one without. -/
theorem xml_read_structured_empty :
    (∃ bytes items, bytes =
        Utf8.encodeChars "<dict><key></key><array><dict/></array></dict>".toList ∧
      IsDocument bytes items ∧ (∀ parts, HoldsDict parts items → PairsEmptyKeys parts) ∧
      xml.read bytes =
        .ok ⟨.only .xml, some (.ofValue (.dict [(.text [], .array [.dict []])]))⟩) ∧
    ∃ bytes, bytes = Utf8.encodeChars "<plist><dict><key></key></dict></plist>".toList ∧
      IsDocument bytes [.dict [.key []]] ∧
      xml.read bytes = .ok ⟨.only .xml, some (.ofValue (.dict []))⟩ := by
  have hpaired : IsDocument
      (Utf8.encodeChars "<dict><key></key><array><dict/></array></dict>".toList)
      [.dict [.key [], .array [.dict []]]] :=
    isDocument_encodeChars rfl (by decide)
      (.inl (.dict (.key [] (.array (.dict .nil .nil) .nil)) .nil))
  have hunpaired : IsDocument (Utf8.encodeChars "<plist><dict><key></key></dict></plist>".toList)
      [.dict [.key []]] :=
    isDocument_encodeChars rfl (by decide) (.inr ⟨_, by decide, .dict (.key [] .nil) .nil⟩)
  have hvalues : values? [.dict [.key [], .array [.dict []]]] =
      some [.dict [(.text [], .array [.dict []])]] := rfl
  have hpairs (parts : List Item) (hparts : HoldsDict parts [.dict [.key [], .array [.dict []]]]) :
      PairsEmptyKeys parts :=
    (hparts.alternates fun i hi _ => values_of_values? hvalues i hi).pairsEmptyKeys
  refine ⟨⟨_, _, rfl, hpaired, hpairs, ?_⟩, _, rfl, hunpaired, ?_⟩
  · exact (((xml_read_structured hpaired).1 hpairs).1 _).mpr ⟨_, _, hvalues, rfl, rfl⟩
  · exact (xml_read_structured hunpaired).2 [] [] [] rfl (by rintro _ ⟨⟩) rfl

end Encoding

end PropertyList
