/-
  PropertyList.Proofs.Json.Names

  The names of the members of objects.  `namesDistinct` goes over the tokens of a
  document and finds a name that an object has twice.  What is written of a tree whose
  keys are distinct texts has no such name.  What is written of any other tree is what
  is written of the tree with the names of its keys, which need not be distinct.
-/
import PropertyList.Proofs.Json.RoundTrip
import PropertyList.Proofs.Json.Spelling

namespace PropertyList.Json

/-! ## Names that occur twice -/

/-- The token that a lexeme is, if it is one. -/
def Lexeme.token? : Lexeme → Option Token
  | .token t => some t
  | _ => none

/-- Whether each object has members of distinct names only.  The names in each open container so
    far are kept, those of the innermost one first. -/
def namesDistinct : List (List Text) → List Token → Bool
  | _, [] => true
  | stack, .beginArray :: ts => namesDistinct ([] :: stack) ts
  | stack, .beginObject :: ts => namesDistinct ([] :: stack) ts
  | stack, .endArray :: ts => namesDistinct stack.tail ts
  | stack, .endObject :: ts => namesDistinct stack.tail ts
  | names :: stack, .text t :: .colon :: ts =>
    !names.contains t && namesDistinct ((t :: names) :: stack) ts
  | stack, _ :: ts => namesDistinct stack ts

/-- The tokens of a text that has no other lexemes. -/
def tokens? (text : Text) : Option (List Token) :=
  (lexemes (text.length + 1) [] text).mapM (·.lexeme.token?)

/-- Whether each object of a document has members of distinct names only. -/
def hasDistinctNames (bytes : List UInt8) : Bool :=
  ((decodeText? bytes).bind tokens?).any (namesDistinct [])

/-- Tokens that take the names in the open containers from one state to another. -/
def Adds (ts : List Token) (before after : List (List Text)) : Prop :=
  ∀ rest : List Token, rest.head? ≠ some .colon →
    namesDistinct before (ts ++ rest) = namesDistinct after rest

/-- Items that take the names from one state to another, one after the other. -/
inductive AddsAll : List (List Token) → List (List Text) → List (List Text) → Prop where
  | nil (stack : List (List Text)) : AddsAll [] stack stack
  | cons {ts : List Token} {tss : List (List Token)} {before middle after : List (List Text)}
      (h : Adds ts before middle) (h' : AddsAll tss middle after) : AddsAll (ts :: tss) before after

section

variable {ts : List Token} {tss : List (List Token)} {before after stack : List (List Text)}

/-- Commas between the items add no names. -/
theorem AddsAll.adds (h : AddsAll tss before after) :
    Adds (tss.intersperse [.comma]).flatten before after := by
  induction h with
  | nil stack => exact fun rest _ => rfl
  | @cons ts tss before middle after h h' ih =>
    intro rest hrest
    cases tss with
    | nil =>
      cases h'
      rw [List.intersperse_singleton, List.flatten_singleton]
      exact h rest hrest
    | cons ts' tss =>
      have hcomma (u : List Token) :
          namesDistinct middle (.comma :: u) = namesDistinct middle u := by
        rw [namesDistinct] <;> simp
      rw [List.intersperse_cons_cons, List.flatten_cons, List.flatten_cons, List.append_assoc,
        List.append_assoc, h _ (by rintro ⟨⟩), List.singleton_append, hcomma]
      exact ih rest hrest

/-- A container has a list of names of its own, which is dropped at its end. -/
theorem adds_bracketed {first last : Token} {names : List Text}
    (hbrackets : (first, last) = (.beginArray, .endArray) ∨
      (first, last) = (.beginObject, .endObject))
    (h : AddsAll tss ([] :: stack) (names :: stack)) :
    Adds (bracketed first last tss) stack stack := by
  intro rest _
  rw [bracketed, List.cons_append, List.append_assoc]
  rcases hbrackets with hbrackets | hbrackets <;> obtain ⟨rfl, rfl⟩ := Prod.mk.inj hbrackets <;>
    rw [namesDistinct, h.adds _ (by rintro ⟨⟩)] <;> rfl

theorem scalar?_of_scalarToken {s : Scalar} {t : Token} (h : scalarToken s = .ok t) :
    t.scalar? = some s := by
  unfold scalarToken at h
  split at h
  case h_3 | h_4 =>
    split_ifs at h
    obtain rfl := Except.ok.inj h
    rfl
  all_goals first
    | obtain rfl := Except.ok.inj h
      rfl
    | cases h

/-- A scalar is no name where it is a value. -/
theorem adds_scalar {s : Scalar} {t : Token} (h : scalarToken s = .ok t) :
    Adds [t] stack stack := by
  intro rest hrest
  have hscalar := scalar?_of_scalarToken h
  rw [List.singleton_append]
  cases t with
  | text u =>
    rw [namesDistinct]
    case x_6 =>
      rintro names outer _ ts - - rfl
      exact hrest rfl
    all_goals rintro ⟨⟩
  | null | bool | int | real => rw [namesDistinct] <;> simp
  | _ => cases hscalar

/-- A member adds its name, and no name may be there before. -/
theorem adds_member {names : List Text} {name : Text} (hname : name ∉ names)
    (h : Adds ts ((name :: names) :: stack) ((name :: names) :: stack)) :
    Adds (.text name :: .colon :: ts) (names :: stack) ((name :: names) :: stack) := by
  intro rest hrest
  have hnew : names.contains name = false := by simpa using hname
  rw [List.cons_append, List.cons_append, namesDistinct, h rest hrest, hnew, Bool.not_false,
    Bool.true_and]

end

section Trees

variable {sortKeys : Bool} {depth : Nat} {v : Value} {ts : List Token}

/-- The name of a key that has one in JSON. -/
def name (k : Scalar) : Text := (keyText k).toOption.getD []

theorem name_eq_of_keyText {k : Scalar} {t : Text} (h : keyText k = .ok t) : name k = t := by
  rw [name, h]
  rfl

/-- The members of an object add their names, which must be new. -/
theorem addsAll_members {listed : List (Scalar × Value)} {tss : List (List Token)}
    (h : List.Forall₂ (fun e ts => memberTokens (e.1, tokens sortKeys (depth + 1) e.2) = .ok ts)
      listed tss)
    (hvalue : ∀ e ∈ listed, ∀ ts, tokens sortKeys (depth + 1) e.2 = .ok ts →
      ∀ stack, Adds ts stack stack)
    (hdistinct : (listed.map fun e => name e.1).Nodup) {names : List Text}
    (hnew : ∀ e ∈ listed, name e.1 ∉ names) (stack : List (List Text)) :
    ∃ names', AddsAll tss (names :: stack) (names' :: stack) := by
  induction h generalizing names with
  | nil => exact ⟨names, .nil _⟩
  | @cons e ts listed tss he _ ih =>
    obtain ⟨key, hkey, he⟩ := exists_of_bind_eq_ok he
    obtain ⟨body, hbody, he⟩ := exists_of_bind_eq_ok he
    obtain rfl := Except.ok.inj he
    obtain rfl := name_eq_of_keyText hkey
    rw [List.map_cons, List.nodup_cons] at hdistinct
    -- the name of this member is no longer new for those that follow
    have hnew' : ∀ f ∈ listed, name f.1 ∉ name e.1 :: names := by
      intro f hf
      rw [List.mem_cons, not_or]
      exact ⟨fun heq => hdistinct.1 (List.mem_map.mpr ⟨f, hf, heq⟩), hnew f (.tail _ hf)⟩
    obtain ⟨names', hrest⟩ := ih (fun f hf => hvalue f (.tail _ hf)) hdistinct.2 hnew'
    have hadds := hvalue e List.mem_cons_self body hbody
    exact ⟨names', .cons (adds_member (hnew e List.mem_cons_self) (hadds _)) hrest⟩

/-- No name occurs twice in an object that is written of a dictionary whose keys have distinct
    names. -/
theorem adds_tokens {P : Scalar → Prop} (hv : v.Over P fun keys => (keys.map name).Nodup)
    (h : tokens sortKeys depth v = .ok ts) (stack : List (List Text)) : Adds ts stack stack := by
  induction hv generalizing depth ts stack with
  | scalar =>
    rw [tokens] at h
    obtain ⟨t, ht, rfl⟩ := exists_of_map_eq_ok h
    exact adds_scalar ht
  | @array items hitems ih =>
    rw [tokens] at h
    split_ifs at h
    obtain ⟨tss, htss, rfl⟩ := exists_of_map_eq_ok h
    -- the items of an array leave its frame without names
    have hall : AddsAll tss ([] :: stack) ([] :: stack) := by
      have heach := forall₂_of_itemTokens htss
      clear htss h hitems
      induction heach with
      | nil => exact .nil _
      | @cons v ts items tss hts _ ihs =>
        exact .cons (ih v List.mem_cons_self hts _) (ihs fun w hw => ih w (.tail _ hw))
    exact adds_bracketed (.inl rfl) hall
  | @dict entries hkeys _ ih =>
    obtain ⟨listed, tss, hlisted, heach, rfl⟩ := exists_of_tokens_dict h
    have hperm := perm_of_ordered hlisted
    -- the keys are listed in another order, which does not make names equal
    have hdistinct : (listed.map fun e => name e.1).Nodup := by
      rw [List.map_map] at hkeys
      exact (hperm.map _).nodup_iff.mpr hkeys
    obtain ⟨names, hall⟩ := addsAll_members heach
      (fun e he ts hts => ih e (hperm.mem_iff.mp he) hts) hdistinct
      (fun e _ => List.not_mem_nil) stack
    exact adds_bracketed (.inr rfl) hall

/-- A document of such a tree has no name twice in an object. -/
theorem namesDistinct_tokens {P : Scalar → Prop} (hv : v.Over P fun keys => (keys.map name).Nodup)
    (h : tokens sortKeys depth v = .ok ts) : namesDistinct [] ts = true := by
  have hnil := adds_tokens hv h [] [] (by rintro ⟨⟩)
  rwa [List.append_nil] at hnil

theorem mapM_token? {ls : List Located} (h : ls.map Located.lexeme = ts.map .token) :
    ls.mapM (·.lexeme.token?) = some ts := by
  induction ts generalizing ls with
  | nil =>
    rw [List.map_eq_nil_iff.mp h]
    rfl
  | cons t ts ih =>
    obtain ⟨l, ls, rfl, hl, hls⟩ := List.map_eq_cons_iff.mp h
    rw [List.mapM_cons, hl, ih hls]
    rfl

/-- The bytes that are written of such a tree have no name twice in an object. -/
theorem hasDistinctNames_of_write {P : Scalar → Prop} {layout : Layout} {bytes : List UInt8}
    (hv : v.Over P fun keys => (keys.map name).Nodup) (h : write layout sortKeys v = .ok bytes) :
    hasDistinctNames bytes = true := by
  obtain ⟨ts, w, hts, hread, htext⟩ := exists_text_of_write h
  have htokens : tokens? (layout.render ts) = some ts :=
    mapM_token? (lexemes_of_delivers hread.1 (spaced_render layout ts))
  rw [hasDistinctNames, htext, Option.bind_some, htokens, Option.any_some]
  exact namesDistinct_tokens hv hts

/-- Distinct texts are their own names. -/
theorem nodup_names {Q : Text → Prop} {keys : List Scalar} (h : TextKeys Q keys) :
    (keys.map name).Nodup := by
  refine List.Nodup.map_on (fun a ha b hb hab => ?_) h.nodup
  obtain ⟨s, rfl, -⟩ := h.text a ha
  obtain ⟨t, rfl, -⟩ := h.text b hb
  exact congrArg Scalar.text hab

/-! ## Names in the place of keys -/

/-- The entries of a dictionary as they are listed, with names for keys. -/
def nameEntries (sortKeys : Bool) (entries : List (Scalar × Value)) : List (Scalar × Value) :=
  ((ordered sortKeys entries).toOption.getD entries).map fun e => (.text (name e.1), e.2)

/-- The tree that JSON shows: each dictionary as it is listed, with names for keys. -/
def named (sortKeys : Bool) (v : Value) : Value := v.transform id (nameEntries sortKeys)

theorem named_scalar (sortKeys : Bool) (s : Scalar) : named sortKeys (.scalar s) = .scalar s :=
  Value.transform_scalar id _ s

theorem named_array (sortKeys : Bool) (items : List Value) :
    named sortKeys (.array items) = .array (items.map (named sortKeys)) :=
  Value.transform_array id _ items

theorem named_dict {entries listed : List (Scalar × Value)}
    (h : ordered sortKeys entries = .ok listed) : named sortKeys (.dict entries) =
      .dict (listed.map fun e => (.text (name e.1), named sortKeys e.2)) := by
  have hordered := @ordered_map_snd sortKeys _ _ (named sortKeys) entries
  rw [h] at hordered
  refine (Value.transform_dict id _ entries).trans (congrArg Value.dict ?_)
  show nameEntries sortKeys (entries.map fun e => (e.1, named sortKeys e.2)) = _
  rw [nameEntries, hordered]
  show List.map _ (List.map _ listed) = _
  rw [List.map_map]
  rfl

theorem itemTokens_of_forall₂ {items : List Value} {tss : List (List Token)}
    (h : List.Forall₂ (fun v ts => tokens sortKeys (depth + 1) v = .ok ts) items tss) :
    itemTokens sortKeys depth items = .ok tss := by
  induction h with
  | nil => rw [itemTokens]
  | cons hv _ ih =>
    rw [itemTokens, hv, ih]
    rfl

/-- The tokens of a dictionary in its own order, from those of its entries. -/
theorem tokens_dict_of_forall₂ {entries : List (Scalar × Value)} {tss : List (List Token)}
    (hdepth : depth < writeDepth)
    (h : List.Forall₂ (fun e ts => memberTokens (e.1, tokens false (depth + 1) e.2) = .ok ts)
      entries tss) :
    tokens false depth (.dict entries) = .ok (bracketed .beginObject .endObject tss) := by
  rw [tokens, if_neg (not_le.mpr hdepth), entryTokens_eq]
  show ((entries.map fun e => (e.1, tokens false (depth + 1) e.2)).mapM memberTokens >>=
    fun members => .ok (bracketed .beginObject .endObject members)) = _
  rw [mapM_map_eq_ok h]
  rfl

/-- The tokens of a tree are those of the tree that they show. -/
theorem tokens_named (h : tokens sortKeys depth v = .ok ts) :
    tokens false depth (named sortKeys v) = .ok ts := by
  induction v using Value.induct generalizing depth ts with
  | scalar s =>
    rw [named_scalar, tokens]
    rwa [tokens] at h
  | array items ih =>
    rw [tokens] at h
    split_ifs at h with hdepth
    obtain ⟨tss, htss, rfl⟩ := exists_of_map_eq_ok h
    have hnamed : itemTokens false depth (items.map (named sortKeys)) = .ok tss := by
      refine itemTokens_of_forall₂ (List.forall₂_map_left_iff.mpr ?_)
      exact forall₂_imp_of_mem (forall₂_of_itemTokens htss) fun v ts hv _ hts => ih v hv hts
    rw [named_array, tokens, if_neg hdepth, hnamed]
    rfl
  | dict entries ih =>
    have hdepth : depth < writeDepth := by
      rw [tokens] at h
      split_ifs at h with hdepth
      exact not_le.mp hdepth
    obtain ⟨listed, tss, hlisted, heach, rfl⟩ := exists_of_tokens_dict h
    -- the entries already stand in the order of the list, so they are not sorted again
    rw [named_dict hlisted]
    refine tokens_dict_of_forall₂ hdepth (List.forall₂_map_left_iff.mpr ?_)
    refine forall₂_imp_of_mem heach fun e ts he _ hts => ?_
    obtain ⟨key, hkey, hts⟩ := exists_of_bind_eq_ok hts
    obtain ⟨body, hbody, hts⟩ := exists_of_bind_eq_ok hts
    obtain rfl := name_eq_of_keyText hkey
    have hnamed := ih e ((perm_of_ordered hlisted).mem_iff.mp he) hbody
    show (keyText (.text (name e.1)) >>= fun key =>
      tokens false (depth + 1) (named sortKeys e.2) >>= fun value =>
        Except.ok (Token.text key :: .colon :: value)) = _
    rw [hnamed]
    exact hts
  | back k =>
    rw [tokens] at h
    cases h

/-- What is written of a tree is what is written of the tree with names for keys. -/
theorem write_named {layout : Layout} {bytes : List UInt8}
    (h : write layout sortKeys v = .ok bytes) :
    write layout false (named sortKeys v) = .ok bytes := by
  obtain ⟨s, htext, h⟩ := exists_of_bind_eq_ok h
  obtain ⟨ts, hts, rfl⟩ := exists_of_map_eq_ok htext
  rw [write, writeText, tokens_named hts]
  exact h

end Trees

end PropertyList.Json
