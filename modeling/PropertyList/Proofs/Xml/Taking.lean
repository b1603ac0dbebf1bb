/-
  PropertyList.Proofs.Xml.Taking

  Items taken by the builder.  The events that spell an item are taken one after the
  other, and `Spells.agrees` says that this amounts to taking the item: the characters
  between the elements are all that is lost.
-/
import PropertyList.Proofs.Xml.Build
import PropertyList.Proofs.Xml.Items

namespace PropertyList.Xml

/-! ## Taking items -/

namespace Builder

/-- The builder without the characters that have been read. -/
def bare (b : Builder) : Builder := { b with chars := [] }

/-- Takes the content of a container, and the tags around it. -/
def within? (e : Element) (content : Builder → Option Builder) (b : Builder) : Option Builder :=
  ((b.startTag (some e)).toOption.bind content).bind fun b => (b.endTag (some e)).toOption

/-- Takes events, as long as each of them fits. -/
def run? (kinds : List EventKind) (b : Builder) : Option Builder :=
  (kinds.foldlM Builder.take b).toOption

end Builder

namespace Item

mutual

/-- Takes an item, as its events are taken one after the other. -/
def take? : Item → Builder → Option Builder
  | key text, b => ({ b with chars := [text] } : Builder).setKey.toOption
  | scalar e text, b => (e.scalar? text).bind fun s => (b.add (.scalar s)).toOption
  | array items, b => b.within? .array fun b => takeAll? items b
  | dict parts, b => b.within? .dict fun b => takeAll? parts b

/-- Takes items one after the other. -/
def takeAll? : List Item → Builder → Option Builder
  | [], b => some b
  | i :: items, b => (i.take? b).bind fun b => takeAll? items b

end

end Item

/-! ## Events -/

/-- The events that spell items.  Text between elements does not count, and the text of an
    element may come in pieces. -/
inductive Spells : List EventKind → List Item → Prop where
  | nil : Spells [] []
  | text (cs : List Char) {kinds : List EventKind} {items : List Item} (h : Spells kinds items) :
      Spells (.text cs :: kinds) items
  | key (pieces : List (List Char)) {kinds : List EventKind} {items : List Item}
      (h : Spells kinds items) :
      Spells (.startTag Element.key.name.toList :: (pieces.map .text ++
        .endTag Element.key.name.toList :: kinds)) (.key pieces.flatten :: items)
  | scalar {e : Element} (he : e.IsScalar) (pieces : List (List Char)) {kinds : List EventKind}
      {items : List Item} (h : Spells kinds items) :
      Spells (.startTag e.name.toList :: (pieces.map .text ++ .endTag e.name.toList :: kinds))
        (.scalar e pieces.flatten :: items)
  | array {inner kinds : List EventKind} {parts items : List Item} (hinner : Spells inner parts)
      (h : Spells kinds items) :
      Spells (.startTag Element.array.name.toList :: (inner ++
        .endTag Element.array.name.toList :: kinds)) (.array parts :: items)
  | dict {inner kinds : List EventKind} {parts items : List Item} (hinner : Spells inner parts)
      (h : Spells kinds items) :
      Spells (.startTag Element.dict.name.toList :: (inner ++
        .endTag Element.dict.name.toList :: kinds)) (.dict parts :: items)

namespace Builder

variable {b : Builder} {e : Element} {kinds : List EventKind}

theorem run?_cons (k : EventKind) (kinds : List EventKind) (b : Builder) :
    run? (k :: kinds) b = (b.take k).toOption.bind (run? kinds) := by
  rw [run?, List.foldlM_cons]
  cases b.take k <;> rfl

theorem run?_append (kinds kinds' : List EventKind) (b : Builder) :
    run? (kinds ++ kinds') b = (run? kinds b).bind (run? kinds') := by
  rw [run?, List.foldlM_append, run?]
  cases kinds.foldlM Builder.take b <;> rfl

theorem run?_pieces (pieces : List (List Char)) (b : Builder) :
    run? (pieces.map .text) b = some { b with chars := pieces.reverse ++ b.chars } := by
  induction pieces generalizing b with
  | nil => rfl
  | cons cs pieces ih =>
    rw [List.map_cons, run?_cons]
    show run? (pieces.map .text) { b with chars := cs :: b.chars } = _
    rw [ih, List.reverse_cons, List.append_assoc]
    rfl

/-- `g` does without the characters read so far what `f` does with them. -/
def Agrees (f g : Builder → Option Builder) : Prop := ∀ b, (f b).map bare = g b.bare

theorem Agrees.comp {f f' g g' : Builder → Option Builder} (h : Agrees f g) (h' : Agrees f' g') :
    Agrees (fun b => (f b).bind f') (fun b => (g b).bind g') := by
  intro b
  show ((f b).bind f').map bare = (g b.bare).bind g'
  rw [← h b]
  cases f b with
  | none => rfl
  | some b => exact h' b

theorem agrees_add (chars : List (List Char)) (v : Value) :
    Agrees (fun b => (({ b with chars := chars } : Builder).add v).toOption)
      (fun b => (b.add v).toOption) := by
  intro b
  cases haccepts : b.accepts with
  | ok =>
    simp only [add_chars haccepts, bare]
    rfl
  | error m =>
    have herror (chars : List (List Char)) :
        ({ b with chars := chars } : Builder).add v = .error m := by
      have h : ({ b with chars := chars } : Builder).accepts = .error m := haccepts
      rw [add, h]
      rfl
    simp only [herror, bare]
    rfl

/-- The end tag of a scalar looks at the text only. -/
theorem agrees_endTag_scalar (he : e.IsScalar) (chars : List (List Char)) :
    Agrees (fun b => (({ b with chars := chars } : Builder).endTag (some e)).toOption)
      (Item.scalar e chars.reverse.flatten).take? := by
  have haddScalar (s : Option Scalar) :
      Agrees (fun b => (({ b with chars := chars } : Builder).addScalar s).toOption)
        (fun b => s.bind fun s => (b.add (.scalar s)).toOption) := by
    intro b
    cases s with
    | none => rfl
    | some s => exact agrees_add [] (.scalar s) b
  cases e with
  | array => exact absurd rfl he.1
  | dict => exact absurd rfl he.2.1
  | key => exact absurd rfl he.2.2
  | string => exact haddScalar (Element.scalar? .string chars.reverse.flatten)
  | integer => exact haddScalar (Element.scalar? .integer chars.reverse.flatten)
  | real => exact haddScalar (Element.scalar? .real chars.reverse.flatten)
  | data => exact haddScalar (Element.scalar? .data chars.reverse.flatten)
  | date => exact haddScalar (Element.scalar? .date chars.reverse.flatten)
  | true => exact agrees_add chars (.bool true)
  | false => exact agrees_add chars (.bool false)

theorem agrees_setKey (chars : List (List Char)) :
    Agrees (fun b => ({ b with chars := chars } : Builder).setKey.toOption)
      (Item.key chars.reverse.flatten).take? := by
  rintro ⟨stack, key, before, root⟩
  have htext : [chars.reverse.flatten].reverse.flatten = chars.reverse.flatten := by simp
  unfold bare Item.take? setKey text
  simp only [htext]
  -- both builders wait for the same key, and have the same container open
  match key, stack with
  | some (_ :: _), _ => rfl
  | none, [] => rfl
  | some [], [] => rfl
  | none, ⟨.array _, _⟩ :: _ => rfl
  | some [], ⟨.array _, _⟩ :: _ => rfl
  | none, ⟨.dict _, _⟩ :: _ => rfl
  | some [], ⟨.dict _, _⟩ :: _ => rfl

theorem agrees_closed : Agrees (fun b => b.closed.toOption) (fun b => b.closed.toOption) := by
  rintro ⟨stack, key, chars, root⟩
  match stack with
  | [] => rfl
  | ⟨content, k⟩ :: outer =>
    exact congrArg some (put_chars ⟨outer, key, chars, root⟩ [] k _).symm

theorem agrees_endTag_array : Agrees (fun b => (b.endTag (some .array)).toOption)
    (fun b => (b.endTag (some .array)).toOption) := agrees_closed

theorem agrees_endTag_dict : Agrees (fun b => (b.endTag (some .dict)).toOption)
    (fun b => (b.endTag (some .dict)).toOption) := by
  rintro ⟨stack, key, chars, root⟩
  match key with
  | none => exact agrees_closed ⟨stack, none, chars, root⟩
  | some [] => exact agrees_closed ⟨stack, some [], chars, root⟩
  | some (_ :: _) => rfl

/-- A start tag forgets the characters in front of it. -/
theorem agrees_startTag (e : Element) : Agrees (fun b => (b.startTag (some e)).toOption)
    (fun b => (b.startTag (some e)).toOption) := by
  intro b
  have hopened (content : Content) : (b.bare.opened content).toOption.map bare =
      (b.bare.opened content).toOption := by
    rw [opened]
    cases b.bare.accepts <;> rfl
  cases e with
  | array => exact hopened _
  | dict => exact hopened _
  | _ => rfl

/-- The tags of an element without parts, and the text between them. -/
theorem run?_leaf (he : ∀ b : Builder, b.startTag (some e) = .ok b.bare)
    (pieces : List (List Char)) (kinds : List EventKind) (b : Builder) :
    run? (.startTag e.name.toList :: (pieces.map .text ++ .endTag e.name.toList :: kinds)) b =
      (({ b with chars := pieces.reverse } : Builder).endTag (some e)).toOption.bind
        (run? kinds) := by
  rw [run?_cons, take, Element.named?_name, he]
  show run? _ b.bare = _
  rw [run?_append, run?_pieces]
  show run? _ { b with chars := pieces.reverse ++ [] } = _
  rw [run?_cons, take, Element.named?_name, List.append_nil]

theorem run?_container {e : Element} (inner kinds : List EventKind) (b : Builder) :
    run? (.startTag e.name.toList :: (inner ++ .endTag e.name.toList :: kinds)) b =
      (b.within? e (run? inner)).bind (run? kinds) := by
  rw [run?_cons, take, Element.named?_name, within?, Option.bind_assoc, Option.bind_assoc]
  refine congrArg _ (funext fun b => ?_)
  rw [run?_append]
  refine congrArg _ (funext fun b => ?_)
  rw [run?_cons, take, Element.named?_name]

end Builder

/-- The events of items are taken as the items are. -/
theorem Spells.agrees {kinds : List EventKind} {items : List Item} (h : Spells kinds items) :
    Builder.Agrees (Builder.run? kinds) (Item.takeAll? items) := by
  induction h with
  | nil => exact fun _ => rfl
  | text cs _ ih =>
    intro b
    rw [Builder.run?_cons]
    exact ih { b with chars := cs :: b.chars }
  | key pieces _ ih =>
    intro b
    rw [Builder.run?_leaf (fun _ => rfl)]
    have h := (Builder.agrees_setKey pieces.reverse).comp ih b
    rw [List.reverse_reverse] at h
    exact h
  | @scalar e he pieces _ _ _ ih =>
    intro b
    -- a scalar is taken at its end, and until then only its characters are collected
    have hstart (b : Builder) : b.startTag (some e) = .ok b.bare := by
      cases e with
      | array => exact absurd rfl he.1
      | dict => exact absurd rfl he.2.1
      | _ => rfl
    rw [Builder.run?_leaf hstart]
    have h := (Builder.agrees_endTag_scalar he pieces.reverse).comp ih b
    rw [List.reverse_reverse] at h
    exact h
  | array _ _ ihinner ih =>
    intro b
    rw [Builder.run?_container]
    exact ((((Builder.agrees_startTag .array).comp ihinner).comp
      Builder.agrees_endTag_array).comp ih) b
  | dict _ _ ihinner ih =>
    intro b
    rw [Builder.run?_container]
    exact ((((Builder.agrees_startTag .dict).comp ihinner).comp
      Builder.agrees_endTag_dict).comp ih) b

end PropertyList.Xml
