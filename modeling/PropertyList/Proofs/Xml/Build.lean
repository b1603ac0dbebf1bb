/-
  PropertyList.Proofs.Xml.Build

  The lines of a value are taken as that value.  `Reads` says so for any builder
  that can take a value, whatever stands behind the lines; it is proved for the
  lines of each kind of scalar, and carried from the parts of a container to the
  container.  The indentation in front of a tag is taken as text, which the next
  start tag forgets.
-/
import PropertyList.Proofs.Base64
import PropertyList.Proofs.Number.Digits
import PropertyList.Proofs.Xml.Normal
import PropertyList.Proofs.Xml.Scan

namespace PropertyList.Xml

theorem Element.isName_name (e : Element) : IsName e.name.toList := by cases e <;> decide

theorem Element.isPlain_name (e : Element) : ∀ c ∈ e.name.toList, IsPlain c := by
  cases e <;> exact forall_of_all (by decide)

/-! ## The builder -/

namespace Builder

variable {b : Builder} {v : Value}

/-- The builder with one more value, and with the characters that were read behind it. -/
def holding (b : Builder) (v : Value) (chars : List (List Char)) : Builder :=
  { ({ b with key := none } : Builder).put b.key v with chars := chars }

theorem put_chars (b : Builder) (chars : List (List Char)) (key : Option Text) (v : Value) :
    ({ b with chars := chars } : Builder).put key v = { b.put key v with chars := chars } := by
  unfold put
  obtain ⟨stack, _, _, _⟩ := b
  match stack with
  | [] => rfl
  | ⟨.array _, _⟩ :: _ => rfl
  | ⟨.dict _, _⟩ :: _ => rfl

/-- A value is added where one can come. -/
theorem add_chars (h : b.accepts = .ok ()) (chars : List (List Char)) :
    ({ b with chars := chars } : Builder).add v = .ok (b.holding v chars) := by
  have haccepts : ({ b with chars := chars } : Builder).accepts = .ok () := h
  rw [add, haccepts, holding, ← put_chars]
  rfl

theorem addScalar_chars {s : Scalar} (h : b.accepts = .ok ()) (chars : List (List Char)) :
    ({ b with chars := chars } : Builder).addScalar (some s) = .ok (b.holding (.scalar s) []) :=
  add_chars h []

theorem opened_eq (h : b.accepts = .ok ()) (content : Content) :
    b.opened content = .ok { b with stack := ⟨content, b.key⟩ :: b.stack, key := none } := by
  rw [opened, h]
  rfl

end Builder

/-! ## Lines -/

/-- A line with a line feed and its indentation in front. -/
def Line.lead (l : Line) : List Char := '\n' :: (List.replicate l.level '\t' ++ l.chars)

namespace Leads

variable {names : List (List Char)} {x y : Builder} {rest : List Char} {level : Nat} {e : Element}

/-- A line feed and indentation in front of a tag. -/
theorem indent (names : List (List Char)) (x : Builder) (level : Nat) (rest : List Char) :
    Leads ⟨names, x, '\n' :: (List.replicate level '\t' ++ '<' :: rest)⟩
      ⟨names, { x with chars := ('\n' :: List.replicate level '\t') :: x.chars }, '<' :: rest⟩ := by
  refine characters (List.cons_ne_nil _ _) (fun c hc => ?_) (.inl rfl)
  rcases List.mem_cons.mp hc with rfl | hc
  · decide
  · rw [(List.mem_replicate.mp hc).2]
    decide

theorem startLine (h : x.startTag (some e) = .ok y) :
    Leads ⟨names, x, (startLine level e.name).lead ++ rest⟩ ⟨e.name.toList :: names, y, rest⟩ := by
  have hchars : (Xml.startLine level e.name).lead ++ rest =
      '\n' :: (List.replicate level '\t' ++ '<' :: (e.name.toList ++ '>' :: rest)) := by
    simp [Xml.startLine, Line.lead]
  rw [hchars]
  refine (indent names x level _).trans (start e.isName_name ?_)
  rw [Element.named?_name]
  exact h

theorem endLine (hnames : names ≠ []) (h : Builder.endTag
      { x with chars := ('\n' :: List.replicate level '\t') :: x.chars } (some e) = .ok y) :
    Leads ⟨e.name.toList :: names, x, (endLine level e.name).lead ++ rest⟩ ⟨names, y, rest⟩ := by
  have hchars : (Xml.endLine level e.name).lead ++ rest =
      '\n' :: (List.replicate level '\t' ++ '<' :: ('/' :: (e.name.toList ++ '>' :: rest))) := by
    simp [Xml.endLine, Line.lead]
  rw [hchars]
  refine (indent _ x level _).trans (finish hnames e.isName_name ?_)
  rw [Element.named?_name]
  exact h

theorem emptyLine {z : Builder} (hnames : names ≠ []) (hstart : x.startTag (some e) = .ok y)
    (hend : y.endTag (some e) = .ok z) :
    Leads ⟨names, x, (emptyLine level e.name).lead ++ rest⟩ ⟨names, z, rest⟩ := by
  have hchars : (Xml.emptyLine level e.name).lead ++ rest =
      '\n' :: (List.replicate level '\t' ++ '<' :: (e.name.toList ++ '/' :: '>' :: rest)) := by
    simp [Xml.emptyLine, Line.lead]
  rw [hchars]
  refine (indent names x level _).trans (empty (y := y) hnames e.isName_name ?_ ?_)
  · rw [Element.named?_name]
    exact hstart
  · rw [Element.named?_name]
    exact hend

/-- An element with text, which the end tag sees as it was before it was escaped. -/
theorem textLine {cs : List Char} (hnames : names ≠ [])
    (hstart : x.startTag (some e) = .ok { x with chars := [] })
    (hend : ∀ chars : List (List Char), chars.reverse.flatten = cs →
      Builder.endTag { x with chars := chars } (some e) = .ok y) :
    Leads ⟨names, x, (textLine level e.name (cs.flatMap escapeChar)).lead ++ rest⟩
      ⟨names, y, rest⟩ := by
  have hchars : (Xml.textLine level e.name (cs.flatMap escapeChar)).lead ++ rest =
      '\n' :: (List.replicate level '\t' ++ '<' :: (e.name.toList ++ '>' ::
        (cs.flatMap escapeChar ++ '<' :: ('/' :: (e.name.toList ++ '>' :: rest))))) := by
    simp [Xml.textLine, Line.lead]
  obtain ⟨chars, hescaped, htext⟩ := escaped (e.name.toList :: names) { x with chars := [] } cs
    ('/' :: (e.name.toList ++ '>' :: rest))
  rw [hchars]
  -- indentation, start tag, escaped text and end tag, one behind the other
  refine (indent names x level _).trans ((start e.isName_name ?_).trans
    (hescaped.trans (finish hnames e.isName_name ?_)))
  · rw [Element.named?_name]
    exact hstart
  · rw [Element.named?_name]
    exact hend chars htext

end Leads

/-! ## Values -/

/-- Lines that are taken as a value, wherever one can come and whatever follows. -/
structure Reads (ls : List Line) (v : Value) : Prop where
  ne_nil : ls ≠ []
  plain : ∀ l ∈ ls, ∀ c ∈ l.chars, IsPlain c
  leads (names : List (List Char)) (b : Builder) (rest : List Char) (hnames : names ≠ [])
    (haccepts : b.accepts = .ok ()) : ∃ chars,
      Leads ⟨names, b, ls.flatMap Line.lead ++ rest⟩ ⟨names, b.holding v chars, rest⟩

theorem isPlain_escapeChar {c : Char} (h : IsPlain c) : ∀ d ∈ escapeChar c, IsPlain d := by
  unfold escapeChar
  split_ifs
  · exact forall_of_all (by decide)
  · exact forall_of_all (by decide)
  · exact forall_of_all (by decide)
  · exact fun d hd => List.mem_singleton.mp hd ▸ h

theorem isPlain_tag (e : Element) {front back : List Char} (hfront : ∀ c ∈ front, IsPlain c)
    (hback : ∀ c ∈ back, IsPlain c) : ∀ c ∈ front ++ (e.name.toList ++ back), IsPlain c := by
  intro c hc
  rcases List.mem_append.mp hc with hc | hc
  · exact hfront c hc
  · rcases List.mem_append.mp hc with hc | hc
    · exact e.isPlain_name c hc
    · exact hback c hc

section Scalars

variable {level : Nat} {s : Scalar} {e : Element}

theorem isPlain_textLine {cs : List Char} (h : ∀ c ∈ cs, IsPlain c) :
    ∀ c ∈ (textLine level e.name (cs.flatMap escapeChar)).chars, IsPlain c := by
  have hchars : (textLine level e.name (cs.flatMap escapeChar)).chars = ['<'] ++ (e.name.toList ++
      ('>' :: cs.flatMap escapeChar ++ (['<', '/'] ++ (e.name.toList ++ ['>'])))) := by
    simp [textLine]
  rw [hchars]
  refine isPlain_tag e (forall_of_all (by decide)) fun c hc => ?_
  rcases List.mem_append.mp hc with hc | hc
  · rcases List.mem_cons.mp hc with rfl | hc
    · decide
    · obtain ⟨a, ha, hca⟩ := List.mem_flatMap.mp hc
      exact isPlain_escapeChar (h a ha) c hca
  · exact isPlain_tag e (forall_of_all (by decide)) (forall_of_all (by decide)) c hc

/-- An element with text is taken as the scalar that the text stands for. -/
theorem reads_textLine {cs : List Char} (hplain : ∀ c ∈ cs, IsPlain c)
    (hstart : ∀ b : Builder, b.startTag (some e) = .ok { b with chars := [] })
    (hend : ∀ (b : Builder) (chars : List (List Char)), b.accepts = .ok () →
      chars.reverse.flatten = cs →
      Builder.endTag { b with chars := chars } (some e) = .ok (b.holding (.scalar s) [])) :
    Reads [textLine level e.name (cs.flatMap escapeChar)] (.scalar s) := by
  refine ⟨List.cons_ne_nil _ _, fun l hl => ?_, fun names b rest hnames haccepts => ⟨[], ?_⟩⟩
  · rw [List.mem_singleton.mp hl]
    exact isPlain_textLine hplain
  · rw [List.flatMap_singleton]
    exact .textLine hnames (hstart b) fun chars => hend b chars haccepts

theorem reads_emptyLine
    (hstart : ∀ b : Builder, b.startTag (some e) = .ok { b with chars := [] })
    (hend : ∀ b : Builder, b.accepts = .ok () →
      Builder.endTag { b with chars := [] } (some e) = .ok (b.holding (.scalar s) [])) :
    Reads [emptyLine level e.name] (.scalar s) := by
  refine ⟨List.cons_ne_nil _ _, fun l hl => ?_, fun names b rest hnames haccepts => ⟨[], ?_⟩⟩
  · rw [List.mem_singleton.mp hl]
    exact @isPlain_tag e ['<'] ['/', '>'] (forall_of_all (by decide)) (forall_of_all (by decide))
  · rw [List.flatMap_singleton]
    exact .emptyLine hnames (hstart b) (hend b haccepts)

theorem reads_bool (level : Nat) (b : Bool) :
    ∃ ls, scalarLines level (.bool b) = .ok ls ∧ Reads ls (.bool b) := by
  cases b with
  | false =>
    exact ⟨_, rfl, reads_emptyLine (e := .false) (fun _ => rfl) fun _ h => Builder.add_chars h []⟩
  | true =>
    exact ⟨_, rfl, reads_emptyLine (e := .true) (fun _ => rfl) fun _ h => Builder.add_chars h []⟩

/-- Text that needs no escapes. -/
theorem flatMap_escapeChar_of {cs : List Char} (h : ∀ c ∈ cs, IsPlain c ∧ IsContent c) :
    cs.flatMap escapeChar = cs ∧ ∀ c ∈ cs, IsPlain c :=
  ⟨flatMap_escapeChar fun c hc => (h c hc).2, fun c hc => (h c hc).1⟩

theorem isPlain_of_isDigit {c : Char} (h : c.isDigit = true) : IsPlain c ∧ IsContent c := by
  have hc := isDigit_iff.mp h
  refine ⟨⟨?_, ?_⟩, ?_, ?_, ?_⟩
  · simp only [isLegal, Bool.or_eq_true, Bool.and_eq_true, decide_eq_true_eq]
    omega
  all_goals rintro rfl; revert h; decide

theorem isPrintable_of_stored {n : Int} (hlow : -0x8000000000000000 ≤ n)
    (hhigh : n < 0x10000000000000000) : Integer.isPrintable n = true := by
  have hpow : Nat.pow 10 20 = 100000000000000000000 := by decide
  have hlimit : 20 ≤ digitLimit := by decide
  exact Integer.isPrintable_of_lt hlimit (by rw [hpow]; omega)

theorem reads_int (level : Nat) {n : Int} (hlow : -0x8000000000000000 ≤ n)
    (hhigh : n < 0x10000000000000000) :
    ∃ ls, scalarLines level (.int n) = .ok ls ∧ Reads ls (.int n) := by
  have hchars (c : Char) (hc : c ∈ Integer.decimal n) : IsPlain c ∧ IsContent c := by
    rcases Integer.mem_decimal hc with rfl | hc
    · decide
    · exact isPlain_of_isDigit hc
  obtain ⟨hescape, hplain⟩ := flatMap_escapeChar_of hchars
  refine ⟨_, if_pos ⟨hlow, hhigh⟩, ?_⟩
  rw [← hescape]
  refine reads_textLine (e := .integer) hplain (fun _ => rfl) fun b chars h htext => ?_
  have hread : Integer.ofText? (Text.ofChars chars.reverse.flatten) = some n := by
    rw [htext]
    exact Integer.ofText?_decimal (isPrintable_of_stored hlow hhigh)
  show Builder.addScalar _ ((Integer.ofText? (Text.ofChars chars.reverse.flatten)).map _) = _
  rw [hread]
  exact Builder.addScalar_chars h chars

theorem reads_date (level : Nat) {t : DateTime} (h : t.IsValid) :
    ∃ ls, scalarLines level (.date t) = .ok ls ∧ Reads ls (.date t.wholeSecond) := by
  -- digits and the four separators: none of them is escaped
  have hchars (c : Char) (hc : c ∈ t.toChars) : IsPlain c ∧ IsContent c := by
    have hmark : ∀ c ∈ ['-', 'T', ':', 'Z'], IsPlain c ∧ IsContent c := forall_of_all (by decide)
    simp only [DateTime.toChars, List.mem_append, List.mem_cons, List.not_mem_nil,
      or_false] at hc
    have hcases : c.isDigit = true ∨ c ∈ ['-', 'T', ':', 'Z'] := by
      have hdigit (width n : Nat) (h : c ∈ DateTime.padded width n) : c.isDigit = true :=
        DateTime.isDigit_of_mem_padded h
      simp only [List.mem_cons, List.not_mem_nil, or_false]
      grind
    rcases hcases with hc | hc
    · exact isPlain_of_isDigit hc
    · exact hmark c hc
  obtain ⟨hescape, hplain⟩ := flatMap_escapeChar_of hchars
  refine ⟨_, rfl, ?_⟩
  rw [← hescape]
  refine reads_textLine (e := .date) hplain (fun _ => rfl) fun b chars haccepts htext => ?_
  have hread : DateTime.ofChars? chars.reverse.flatten = some t.wholeSecond := by
    rw [htext]
    exact DateTime.ofChars?_toChars h
  show Builder.addScalar _ ((DateTime.ofChars? chars.reverse.flatten).map _) = _
  rw [hread]
  exact Builder.addScalar_chars haccepts chars

/-- A line with a text that may hold anything legal. -/
theorem stringLine_eq (level : Nat) (name : String) {cs : List Char}
    (h : ∀ c ∈ cs, isLegal c = true) : stringLine level name (Text.ofChars cs) =
      .ok (textLine level name (escapeText cs)) := by
  have hcontrol : (Text.ofChars cs).any isControl = false := by
    rw [List.any_eq_false]
    intro c hc
    obtain ⟨d, hd, rfl⟩ := List.mem_map.mp hc
    rw [isControl_of_isLegal (h d hd)]
    exact Bool.false_ne_true
  rw [stringLine, hcontrol, if_neg Bool.false_ne_true, Text.chars?_ofChars]

theorem reads_text (level : Nat) {t : Text} (h : t.IsLegal) :
    ∃ ls, scalarLines level (.text t) = .ok ls ∧ Reads ls (.text t.unifyBreaks) := by
  obtain ⟨cs, rfl, hcs⟩ := h
  have hunify : (Text.ofChars cs).unifyBreaks = Text.ofChars (unifyBreaks false [] cs) :=
    (ofChars_unifyBreaks false [] cs).symm
  have hplain := isPlain_unifyBreaks false (List.forall_mem_nil _) hcs
  refine ⟨[textLine level "string" (escapeText cs)], ?_, ?_⟩
  · rw [scalarLines, stringLine_eq level _ hcs]
    rfl
  · rw [hunify]
    refine reads_textLine (e := .string) hplain (fun _ => rfl) fun b chars haccepts htext => ?_
    rw [← htext]
    exact Builder.addScalar_chars haccepts chars

theorem isPlain_of_mem_encode {bytes : List UInt8} {c : Char} (h : c ∈ Base64.encode bytes) :
    IsPlain c ∧ IsContent c := by
  have hdigit : ∀ n, n < 64 → IsPlain (Base64.digit n) ∧ IsContent (Base64.digit n) := by decide
  rcases Base64.mem_encode h with rfl | ⟨n, hn, rfl⟩
  · decide
  · exact hdigit n hn

theorem isPlain_of_mem_encodeLines {level : Nat} {bytes : List UInt8} {cs : List Char}
    (hcs : cs ∈ Base64.encodeLines (dataWidth level) bytes) {c : Char} (hc : c ∈ cs) :
    IsPlain c ∧ IsContent c := by
  obtain ⟨chunk, -, rfl⟩ := List.mem_map.mp hcs
  exact isPlain_of_mem_encode hc

theorem isIgnored_of_mem_indent {level : Nat} {c : Char}
    (h : c ∈ '\n' :: List.replicate level '\t') : IsContent c ∧ Base64.IsIgnored c := by
  rcases List.mem_cons.mp h with rfl | h
  · decide
  · rw [(List.mem_replicate.mp h).2]
    decide

/-- What stands between the tags of data: lines of digits, each on a line of its own, and the space
    in front of the end tag. -/
def dataText (level : Nat) (bytes : List UInt8) : List Char :=
  (Base64.encodeLines (dataWidth level) bytes).flatMap
    (fun cs => '\n' :: List.replicate level '\t' ++ cs) ++ '\n' :: List.replicate level '\t'

theorem dataText_ne_nil (level : Nat) (bytes : List UInt8) : dataText level bytes ≠ [] :=
  List.append_ne_nil_of_right_ne_nil _ (List.cons_ne_nil _ _)

theorem isContent_dataText {level : Nat} {bytes : List UInt8} {c : Char}
    (h : c ∈ dataText level bytes) : IsContent c := by
  rcases List.mem_append.mp h with h | h
  · obtain ⟨cs, hcs, h⟩ := List.mem_flatMap.mp h
    rcases List.mem_append.mp h with h | h
    · exact (isIgnored_of_mem_indent h).1
    · exact (isPlain_of_mem_encodeLines hcs h).2
  · exact (isIgnored_of_mem_indent h).1

/-- Only the digits count: all that stands between the lines is passed over. -/
theorem decode?_dataText (level : Nat) (bytes : List UInt8) :
    Base64.decode? (dataText level bytes) = some bytes := by
  have hwidth : 4 ≤ dataWidth level := Nat.le_trans (by decide) (Nat.le_max_left 16 _)
  exact Base64.decode?_encodeLines hwidth bytes fun c hc => (isIgnored_of_mem_indent hc).2

/-- The lines of data are one run of text. -/
theorem reads_data (level : Nat) (bytes : List UInt8) :
    ∃ ls, scalarLines level (.data bytes) = .ok ls ∧ Reads ls (.data bytes) := by
  refine ⟨_, rfl, List.cons_ne_nil _ _, fun l hl => ?_, fun names b rest hnames haccepts => ?_⟩
  · simp only [List.mem_cons, List.mem_append, List.mem_map, List.not_mem_nil, or_false] at hl
    rcases hl with rfl | ⟨cs, hcs, rfl⟩ | rfl
    · exact @isPlain_tag .data ['<'] ['>'] (forall_of_all (by decide)) (forall_of_all (by decide))
    · exact fun c hc => (isPlain_of_mem_encodeLines hcs hc).1
    · exact @isPlain_tag .data ['<', '/'] ['>'] (forall_of_all (by decide))
        (forall_of_all (by decide))
  · have hend : Builder.endTag { b with chars := [dataText level bytes] } (some .data) =
        .ok (b.holding (.data bytes) []) := by
      show Builder.addScalar _
        ((Base64.decode? [dataText level bytes].reverse.flatten).map _) = _
      rw [List.reverse_singleton, List.flatten_singleton, decode?_dataText]
      exact Builder.addScalar_chars haccepts _
    -- the lines in a row are the start tag, the text of the data and the end tag
    have hchars : (startLine level "data" :: (((Base64.encodeLines (dataWidth level) bytes).map
        fun cs => (⟨level, cs⟩ : Line)) ++ [endLine level "data"])).flatMap Line.lead ++ rest =
        (startLine level Element.data.name).lead ++ (dataText level bytes ++
          '<' :: ('/' :: (Element.data.name.toList ++ '>' :: rest))) := by
      rw [dataText, List.flatMap_cons, List.flatMap_append, List.flatMap_map,
        List.flatMap_singleton]
      simp [Line.lead, endLine, Element.name]
    refine ⟨[], ?_⟩
    rw [hchars]
    refine (Leads.startLine (y := { b with chars := [] }) rfl).trans
      ((Leads.characters (dataText_ne_nil level bytes) (fun c hc => isContent_dataText hc)
        (.inl rfl)).trans (.finish hnames Element.data.isName_name ?_))
    rw [Element.named?_name]
    exact hend

end Scalars

end PropertyList.Xml
