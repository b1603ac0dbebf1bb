/-
  PropertyList.Proofs.Xml.Containers

  From the lines of parts to the lines of a container, and so to those of a
  tree: what is written of a tree is taken as what is left of it.  Entries are
  read in the order in which they are written, and keys that have become equal
  are merged.
-/
import PropertyList.Proofs.Xml.Build

namespace PropertyList.Xml

/-! ## Containers -/

/-- The value of the content of a container. -/
def Content.value : Content → Value
  | .array items => .array items.reverse
  | .dict entries => .dict entries

theorem Builder.closed_eq (b : Builder) (content : Content) (chars : List (List Char)) :
    Builder.closed ⟨⟨content, b.key⟩ :: b.stack, none, chars, b.root⟩ =
      .ok (b.holding content.value chars) := by
  have hput := put_chars { b with key := none } chars b.key content.value
  rw [holding, ← hput]
  cases content <;> rfl

/-- Lines that fill an open container: they lead to the same one with more in it. -/
def Fills (ls : List Line) (before after : Content) : Prop :=
  ∀ (names : List (List Char)) (b : Builder) (k : Option Text) (outer : List Open)
    (rest : List Char), names ≠ [] → b.key = none → b.stack = ⟨before, k⟩ :: outer → ∃ chars,
      Leads ⟨names, b, ls.flatMap Line.lead ++ rest⟩
        ⟨names, ⟨⟨after, k⟩ :: outer, none, chars, b.root⟩, rest⟩

namespace Fills

variable {ls ls' : List Line} {before middle after : Content}

theorem nil (c : Content) : Fills [] c c := by
  rintro names ⟨stack, key, chars, root⟩ k outer rest - rfl rfl
  exact ⟨chars, .refl _⟩

theorem append (h : Fills ls before middle) (h' : Fills ls' middle after) :
    Fills (ls ++ ls') before after := by
  intro names b k outer rest hnames hkey hstack
  obtain ⟨chars, hlead⟩ := h names b k outer (ls'.flatMap Line.lead ++ rest) hnames hkey hstack
  obtain ⟨chars', hlead'⟩ := h' names ⟨⟨middle, k⟩ :: outer, none, chars, b.root⟩ k outer rest
    hnames rfl rfl
  rw [List.flatMap_append, List.append_assoc]
  exact ⟨chars', hlead.trans hlead'⟩

end Fills

/-- A container is taken as what fills it. -/
theorem reads_container (level : Nat) {e : Element} {ls : List Line} {before after : Content}
    (hplain : ∀ l ∈ ls, ∀ c ∈ l.chars, IsPlain c) (hfills : Fills ls before after)
    (hnil : ls = [] → after = before)
    (hstart : ∀ b : Builder, b.accepts = .ok () → b.startTag (some e) = .ok
      { b with stack := ⟨before, b.key⟩ :: b.stack, key := none, chars := [] })
    (hend : ∀ b : Builder, b.key = none → b.endTag (some e) = b.closed) :
    Reads (containerLines level e.name ls) after.value := by
  -- a container without lines is one empty tag
  by_cases hempty : ls = []
  · have hlines : containerLines level e.name ls = [emptyLine level e.name] := by
      rw [hempty]
      rfl
    rw [hlines, hnil hempty]
    refine ⟨List.cons_ne_nil _ _, fun l hl => ?_, fun names b rest hnames haccepts => ⟨[], ?_⟩⟩
    · rw [List.mem_singleton.mp hl]
      exact @isPlain_tag e ['<'] ['/', '>'] (forall_of_all (by decide)) (forall_of_all (by decide))
    · rw [List.flatMap_singleton]
      refine .emptyLine hnames (hstart b haccepts) ?_
      rw [hend _ rfl]
      exact Builder.closed_eq b before []
  · have hlines : containerLines level e.name ls =
        startLine level e.name :: (ls ++ [endLine level e.name]) := by
      rw [containerLines, List.isEmpty_eq_false_iff.mpr hempty]
      rfl
    rw [hlines]
    refine ⟨List.cons_ne_nil _ _, fun l hl => ?_, fun names b rest hnames haccepts => ?_⟩
    · simp only [List.mem_cons, List.mem_append, List.not_mem_nil, or_false] at hl
      rcases hl with rfl | hl | rfl
      · exact @isPlain_tag e ['<'] ['>'] (forall_of_all (by decide)) (forall_of_all (by decide))
      · exact hplain l hl
      · exact @isPlain_tag e ['<', '/'] ['>'] (forall_of_all (by decide))
          (forall_of_all (by decide))
    · obtain ⟨chars, hlead⟩ := hfills (e.name.toList :: names)
        { b with stack := ⟨before, b.key⟩ :: b.stack, key := none, chars := [] } b.key b.stack
        ((endLine level e.name).lead ++ rest) (List.cons_ne_nil _ _) rfl rfl
      rw [List.flatMap_cons, List.flatMap_append, List.flatMap_singleton, List.append_assoc,
        List.append_assoc]
      -- the white space in front of the end tag is text, too, but nothing takes it
      have hclosed : Builder.endTag ⟨⟨after, b.key⟩ :: b.stack, none,
          ('\n' :: List.replicate level '\t') :: chars, b.root⟩ (some e) = .ok
            (b.holding after.value (('\n' :: List.replicate level '\t') :: chars)) := by
        rw [hend _ rfl]
        exact Builder.closed_eq b after _
      exact ⟨_, (Leads.startLine (hstart b haccepts)).trans (hlead.trans (.endLine hnames hclosed))⟩

/-! ## Arrays -/

theorem Reads.fills {ls : List Line} {v : Value} (h : Reads ls v) (items : List Value) :
    Fills ls (.array items) (.array (v :: items)) := by
  rintro names ⟨stack, key, chars, root⟩ k outer rest hnames rfl rfl
  exact h.leads names _ rest hnames rfl

theorem fills_items {lss : List (List Line)} {vs : List Value} (h : List.Forall₂ Reads lss vs)
    (items : List Value) : Fills lss.flatten (.array items) (.array (vs.reverse ++ items)) := by
  induction h generalizing items with
  | nil => exact .nil _
  | @cons ls v lss vs hv _ ih =>
    rw [List.flatten_cons, List.reverse_cons, List.append_assoc]
    exact (hv.fills items).append (ih (v :: items))

theorem isPlain_flatten {lss : List (List Line)}
    (h : ∀ ls ∈ lss, ∀ l ∈ ls, ∀ c ∈ l.chars, IsPlain c) :
    ∀ l ∈ lss.flatten, ∀ c ∈ l.chars, IsPlain c := by
  intro l hl
  obtain ⟨ls, hls, hl⟩ := List.mem_flatten.mp hl
  exact h ls hls l hl

theorem reads_array (level : Nat) {lss : List (List Line)} {vs : List Value}
    (h : List.Forall₂ Reads lss vs) : Reads (containerLines level "array" lss.flatten) (.array vs) := by
  have hplain : ∀ ls ∈ lss, ∀ l ∈ ls, ∀ c ∈ l.chars, IsPlain c := by
    intro ls hls
    obtain ⟨v, -, hv⟩ := exists_of_forall₂_left h hls
    exact hv.plain
  -- an item has a line at least, so without lines there are no items
  have hnil : lss.flatten = [] → Content.array (vs.reverse ++ []) = .array [] := by
    intro hflat
    cases h with
    | nil => rfl
    | cons hv _ => exact absurd (List.append_eq_nil_iff.mp hflat).1 hv.ne_nil
  have hreads := reads_container level (e := .array) (isPlain_flatten hplain)
    (fills_items h []) hnil (fun b haccepts => Builder.opened_eq (b := { b with chars := [] })
      haccepts _) fun _ _ => rfl
  rw [List.append_nil] at hreads
  have hvalue : (Content.array vs.reverse).value = .array vs := by
    rw [Content.value, List.reverse_reverse]
  rw [hvalue] at hreads
  exact hreads

/-! ## Dictionaries -/

/-- A line that is taken as a key of an open dictionary. -/
structure ReadsKey (l : Line) (t : Text) : Prop where
  plain : ∀ c ∈ l.chars, IsPlain c
  leads (names : List (List Char)) (b : Builder) (entries : List (Scalar × Value))
    (k : Option Text) (outer : List Open) (rest : List Char) (hnames : names ≠ [])
    (hkey : b.key = none) (hstack : b.stack = ⟨.dict entries, k⟩ :: outer) :
      Leads ⟨names, b, l.lead ++ rest⟩ ⟨names, { b with key := some t, chars := [] }, rest⟩

theorem exists_readsKey (level : Nat) {t : Text} (h : t.IsLegal) :
    ∃ l, stringLine level "key" t = .ok l ∧ ReadsKey l t.unifyBreaks := by
  obtain ⟨cs, rfl, hcs⟩ := h
  have hunify : (Text.ofChars cs).unifyBreaks = Text.ofChars (unifyBreaks false [] cs) :=
    (ofChars_unifyBreaks false [] cs).symm
  have hplain := isPlain_unifyBreaks false (List.forall_mem_nil _) hcs
  refine ⟨_, stringLine_eq level _ hcs, isPlain_textLine (e := .key) hplain, ?_⟩
  rintro names ⟨stack, key, chars, root⟩ entries k outer rest hnames rfl rfl
  refine .textLine (e := .key) hnames rfl fun chars htext => ?_
  rw [hunify, ← htext]
  rfl

/-- The lines of an entry: a key, and the lines of the value. -/
def ReadsEntry (ls : List Line) (e : Scalar × Value) : Prop :=
  ∃ (t : Text) (l : Line) (body : List Line), ls = l :: body ∧ e.1 = .text t ∧
    ReadsKey l t.unifyBreaks ∧ Reads body e.2

theorem ReadsEntry.fills {ls : List Line} {e : Scalar × Value} (h : ReadsEntry ls e)
    (entries : List (Scalar × Value)) :
    Fills ls (.dict entries) (.dict (Value.setEntry entries e.1.normal e.2)) := by
  obtain ⟨t, l, body, rfl, htext, hkey, hbody⟩ := h
  rintro names ⟨stack, key, chars, root⟩ k outer rest hnames rfl rfl
  have hlead := hkey.leads names ⟨⟨.dict entries, k⟩ :: outer, none, chars, root⟩ entries k outer
    (body.flatMap Line.lead ++ rest) hnames rfl rfl
  obtain ⟨chars', hlead'⟩ := hbody.leads names
    ⟨⟨.dict entries, k⟩ :: outer, some t.unifyBreaks, [], root⟩ rest hnames rfl
  rw [List.flatMap_cons, List.append_assoc, htext]
  exact ⟨chars', hlead.trans hlead'⟩

theorem fills_entries {lss : List (List Line)} {es : List (Scalar × Value)}
    (h : List.Forall₂ ReadsEntry lss es) (entries : List (Scalar × Value)) :
    Fills lss.flatten (.dict entries)
      (.dict (es.foldl (fun es e => Value.setEntry es e.1.normal e.2) entries)) := by
  induction h generalizing entries with
  | nil => exact .nil _
  | @cons ls e lss es he _ ih =>
    rw [List.flatten_cons, List.foldl_cons]
    exact (he.fills entries).append (ih _)

theorem reads_dict (level : Nat) {lss : List (List Line)} {es : List (Scalar × Value)}
    (h : List.Forall₂ ReadsEntry lss es) :
    Reads (containerLines level "dict" lss.flatten) (.dict (Value.mergeEntries es)) := by
  have hplain : ∀ ls ∈ lss, ∀ l ∈ ls, ∀ c ∈ l.chars, IsPlain c := by
    intro ls hls l hl
    obtain ⟨e, -, t, key, body, rfl, -, hkey, hbody⟩ := exists_of_forall₂_left h hls
    rcases List.mem_cons.mp hl with rfl | hl
    · exact hkey.plain
    · exact hbody.plain l hl
  have hnil : lss.flatten = [] → Content.dict (Value.mergeEntries es) = .dict [] := by
    intro hflat
    cases h with
    | nil => rfl
    | cons he _ =>
      obtain ⟨t, l, body, rfl, -⟩ := he
      exact absurd (List.append_eq_nil_iff.mp hflat).1 (List.cons_ne_nil _ _)
  refine reads_container level (e := .dict) (isPlain_flatten hplain) (fills_entries h []) hnil
    (fun b haccepts => Builder.opened_eq (b := { b with chars := [] }) haccepts _) fun b hkey => ?_
  simp only [Builder.endTag, hkey]

/-! ## Trees -/

section Trees

variable {P : Scalar → Prop} {f : Scalar → Scalar} {sortKeys : Bool} {level : Nat}

/-- Scalars that can be written, and are read as what `f` makes of them. -/
def Survives (P : Scalar → Prop) (f : Scalar → Scalar) : Prop :=
  ∀ s, P s → ∀ level, ∃ ls, scalarLines level s = .ok ls ∧ Reads ls (.scalar (f s))

theorem itemLines_eq {items : List Value} {lss : List (List Line)}
    (h : List.Forall₂ (fun v ls => lines sortKeys (level + 1) v = .ok ls) items lss) :
    itemLines sortKeys level items = .ok lss.flatten := by
  induction h with
  | nil => rw [itemLines, List.flatten_nil]
  | cons hv _ ih =>
    rw [itemLines, hv, ih]
    rfl

theorem entryLines_eq (sortKeys : Bool) (level : Nat) (entries : List (Scalar × Value)) :
    entryLines sortKeys level entries =
      entries.map fun e => (e.1, lines sortKeys (level + 1) e.2) := by
  induction entries with
  | nil => rw [entryLines, List.map_nil]
  | cons e es ih => rw [entryLines, ih, List.map_cons]

theorem ordered_entryLines {Q : Text → Prop} {entries : List (Scalar × Value)}
    (h : TextKeys Q (entries.map (·.1))) :
    ordered sortKeys (entryLines sortKeys level entries) =
      .ok ((Value.listedEntries sortKeys entries).map fun e =>
        (e.1, lines sortKeys (level + 1) e.2)) := by
  rw [entryLines_eq]
  cases sortKeys with
  | false => rfl
  | true =>
    rw [ordered, if_pos rfl, Value.sortByKey?_map h]
    rfl

/-- The lines of an entry: a line for its key, and the lines of its value. -/
def memberLines (level : Nat) (e : Scalar × Except WriteFault (List Line)) :
    Except WriteFault (List Line) :=
  match e.1.text? with
  | none => .error .keyNotText
  | some t => do
    let key ← stringLine (level + 1) "key" t
    let value ← e.2
    .ok (key :: value)

theorem lines_dict {entries : List (Scalar × Value)}
    {listed : List (Scalar × Except WriteFault (List Line))} {lss : List (List Line)}
    (hlevel : level < writeDepth)
    (hlisted : ordered sortKeys (entryLines sortKeys level entries) = .ok listed)
    (hmembers : listed.mapM (memberLines level) = .ok lss) :
    lines sortKeys level (.dict entries) = .ok (containerLines level "dict" lss.flatten) := by
  rw [lines, if_neg (Nat.not_le.mpr hlevel), hlisted]
  show (listed.mapM (memberLines level)).bind _ = _
  rw [hmembers]
  rfl

/-- The lines of entries whose values have lines that are taken as what `w` makes of them. -/
theorem exists_readsEntries {entries : List (Scalar × Value)} {w : Value → Value}
    (hkeys : TextKeys Text.IsLegal (entries.map (·.1)))
    (hvalues : ∀ e ∈ entries, ∃ ls, lines sortKeys (level + 1) e.2 = .ok ls ∧ Reads ls (w e.2)) :
    ∃ lss, ((Value.listedEntries sortKeys entries).map fun e =>
        (e.1, lines sortKeys (level + 1) e.2)).mapM (memberLines level) = .ok lss ∧
      List.Forall₂ ReadsEntry lss
        ((Value.listedEntries sortKeys entries).map fun e => (e.1, w e.2)) := by
  have hmem {e : Scalar × Value} (he : e ∈ Value.listedEntries sortKeys entries) :
      e ∈ entries := (Value.listedEntries_perm sortKeys entries).mem_iff.mp he
  -- the lines are chosen together with what they are read as
  obtain ⟨lss, hlss⟩ := exists_forall₂_of_forall
    (R := fun e ls => memberLines level (e.1, lines sortKeys (level + 1) e.2) = .ok ls ∧
      ReadsEntry ls (e.1, w e.2))
    fun e (he : e ∈ Value.listedEntries sortKeys entries) => by
    obtain ⟨t, ht, hlegal⟩ := hkeys.text e.1 (List.mem_map_of_mem (hmem he))
    obtain ⟨l, hl, hkey⟩ := exists_readsKey (level + 1) hlegal
    obtain ⟨body, hbody, hreads⟩ := hvalues e (hmem he)
    refine ⟨l :: body, ?_, t, l, body, rfl, ht, hkey, hreads⟩
    simp only [memberLines, ht, Scalar.text?, hl, hbody]
    rfl
  refine ⟨lss, mapM_map_eq_ok (hlss.imp fun e ls h => h.1), ?_⟩
  rw [List.forall₂_map_right_iff]
  exact (hlss.imp fun e ls h => h.2).flip

/-- What is written of a tree is taken as what is left of it. -/
theorem exists_reads (hf : Survives P f) {v : Value} (hv : v.Over P (TextKeys Text.IsLegal)) :
    ∀ level, level + v.depth ≤ writeDepth → ∃ ls, lines sortKeys level v = .ok ls ∧
      Reads ls ((v.arranged sortKeys).transform f Value.mergeEntries) := by
  induction hv with
  | @scalar s hs =>
    intro level _
    rw [lines, Value.arranged_scalar, Value.transform_scalar]
    exact hf s hs level
  | @array items _ ih =>
    intro level hlevel
    obtain ⟨n, hn, hitems⟩ :=
      Value.exists_depth_eq_succ_of_array (Nat.le_refl (Value.array items).depth)
    -- every item is one level deeper, which the depth of the array allows for
    obtain ⟨lss, hlss⟩ := exists_forall₂_of_forall fun v hv =>
      ih v hv (level + 1) (by have := hitems v hv; omega)
    have hlines := itemLines_eq (hlss.imp fun v ls h => h.1)
    have hreads : List.Forall₂ Reads lss
        (items.map fun v => (v.arranged sortKeys).transform f Value.mergeEntries) := by
      rw [List.forall₂_map_right_iff]
      exact (hlss.imp fun v ls h => h.2).flip
    have hvalue : ((Value.array items).arranged sortKeys).transform f Value.mergeEntries =
        .array (items.map fun v => (v.arranged sortKeys).transform f Value.mergeEntries) := by
      rw [Value.arranged_array, Value.transform_array, List.map_map]
      rfl
    rw [hvalue]
    refine ⟨_, ?_, reads_array level hreads⟩
    rw [lines, if_neg (by omega), hlines]
    rfl
  | @dict entries hkeys _ ih =>
    intro level hlevel
    obtain ⟨n, hn, hentries⟩ :=
      Value.exists_depth_eq_succ_of_dict (Nat.le_refl (Value.dict entries).depth)
    obtain ⟨lss, hlss, hreads⟩ := exists_readsEntries
      (w := fun v => (v.arranged sortKeys).transform f Value.mergeEntries) hkeys fun e he =>
        ih e he (level + 1) (by have := hentries e he; omega)
    have hvalue : ((Value.dict entries).arranged sortKeys).transform f Value.mergeEntries =
        .dict (Value.mergeEntries ((Value.listedEntries sortKeys entries).map
          fun e => (e.1, (e.2.arranged sortKeys).transform f Value.mergeEntries))) := by
      rw [Value.arranged_dict, Value.transform_dict, List.map_map]
      rfl
    rw [hvalue]
    exact ⟨_, lines_dict (by omega) (ordered_entryLines hkeys) hlss, reads_dict level hreads⟩

/-- Sorted lines are the same for a tree that is sorted already. -/
theorem lines_sorted {Q : Text → Prop} {v : Value} (hv : v.Over P (TextKeys Q)) (level : Nat) :
    lines true level v.sorted = lines true level v := by
  induction hv generalizing level with
  | scalar => rw [Value.sorted_scalar]
  | @array items hall ih =>
    have hitems : itemLines true level (items.map Value.sorted) = itemLines true level items := by
      clear hall
      induction items with
      | nil => rfl
      | cons v vs ihs =>
        rw [List.map_cons, itemLines, itemLines, ih v List.mem_cons_self,
          ihs fun w hw => ih w (List.mem_cons_of_mem _ hw)]
    rw [Value.sorted_array, lines, lines, hitems]
  | @dict entries hkeys _ ih =>
    -- sorting the entries again keeps their order
    have hentries : ordered true (entryLines true level
        (Value.sortEntries (entries.map fun e => (e.1, e.2.sorted)))) =
          ordered true (entryLines true level entries) := by
      rw [ordered_entryLines (hkeys.perm (Value.keys_sorted_perm entries).symm),
        ordered_entryLines hkeys, Value.listedEntries_sorted, List.map_map]
      refine congrArg Except.ok (List.map_congr_left fun e he => ?_)
      have hmem : e ∈ entries := (Value.listedEntries_perm true entries).mem_iff.mp he
      exact congrArg (Prod.mk e.1) (ih e hmem (level + 1))
    rw [Value.sorted_dict, lines, lines, hentries]

theorem write_arranged {Q : Text → Prop} {v : Value} (hv : v.Over P (TextKeys Q))
    (sortKeys : Bool) : write sortKeys (v.arranged sortKeys) = write sortKeys v := by
  cases sortKeys with
  | false => rfl
  | true => rw [write, write, Value.arranged_true, lines_sorted hv]

end Trees

end PropertyList.Xml
