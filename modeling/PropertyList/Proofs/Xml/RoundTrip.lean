/-
  PropertyList.Proofs.Xml.RoundTrip

  From the lines of a tree to a document, and from its bytes back to the tree.
  What is lost on the way is what `Value.normal` says, and nothing else.
-/
import PropertyList.Codec
import PropertyList.Proofs.Graph.OfValue
import PropertyList.Proofs.Xml.Containers
import PropertyList.Proofs.Xml.Prolog

namespace PropertyList

namespace Xml

/-! ## Documents -/

/-- The start tag of the root element. -/
def rootStart : List Char := "<plist version=\"1.0\">".toList

/-- The end tag of the root element, with the line ends around it. -/
def rootEnd : List Char := "\n</plist>\n".toList

/-- The name of the root element. -/
def rootName : List Char := "plist".toList

/-- Line feeds stand in front of lines as well as behind them. -/
theorem cons_flatMap_render (ls : List Line) :
    '\n' :: ls.flatMap Line.render = ls.flatMap Line.lead ++ ['\n'] := by
  induction ls with
  | nil => rfl
  | cons l ls ih =>
    rw [List.flatMap_cons, List.flatMap_cons, List.append_assoc, ← ih, Line.lead, Line.render]
    simp

theorem render_eq (ls : List Line) : render ls =
    declaration ++ (documentTypeChars ++ (rootStart ++ (ls.flatMap Line.lead ++ rootEnd))) := by
  have hstart : "<plist version=\"1.0\">\n".toList = rootStart ++ ['\n'] := rfl
  have hbody : ls.flatMap Line.lead ++ rootEnd =
      '\n' :: (ls.flatMap Line.render ++ "</plist>\n".toList) := by
    rw [← List.cons_append, cons_flatMap_render, List.append_assoc]
    rfl
  rw [render, documentStart_eq, hstart, hbody]
  simp only [List.append_assoc, List.cons_append, List.nil_append]

theorem scanContent_rootStart (fuel : Nat) (rest : List Char) :
    scanContent .standard false (fuel + 2) [] [] (rootStart ++ rest) =
      scanContent .standard false (fuel + 1) [rootName]
        [⟨.startTag rootName, rootStart ++ rest⟩] rest := by
  have htag : takeStartTag? .standard false (fuel + 2) (rootStart.tail ++ rest) =
      some (rootName, .element, rest) := rfl
  have hcons : rootStart ++ rest = '<' :: 'p' :: (rootStart.tail.tail ++ rest) := rfl
  have hcons' : rootStart.tail ++ rest = 'p' :: (rootStart.tail.tail ++ rest) := rfl
  rw [hcons'] at htag
  rw [hcons, scanContent_tag (by decide), htag]

/-- The root element is passed over: its tags change nothing. -/
theorem Builder.take_root (b : Builder) :
    Builder.start.take (.startTag rootName) = .ok .start ∧ b.take (.endTag rootName) = .ok b := by
  have hplist : Element.named? rootName = none := by decide
  rw [Builder.take, Builder.take, hplist]
  exact ⟨rfl, rfl⟩

/-- The events of a document, when the scanner gets through its content with `n` steps. -/
theorem ofSource_of_scan {content : List Char} {n : Nat} {evs : List Event}
    (hn : n ≤ (rootStart ++ content).length - 1)
    (hscan : ∀ fuel events, scanContent .standard false (fuel + n) [rootName] events content =
      scanContent .standard false fuel [rootName] (evs.reverse ++ events)
        ('<' :: "/plist>\n".toList)) :
    Event.ofSource (.ofChars (documentTypeChars ++ (rootStart ++ content))) =
      (⟨.startTag rootName, rootStart ++ content⟩ ::
        (evs ++ [⟨.endTag rootName, '<' :: "/plist>\n".toList⟩]), none) := by
  have hprolog : readProlog (.ofChars (documentTypeChars ++ (rootStart ++ content))) =
      .ok (false, rootStart ++ content) := readProlog_documentType (rootStart.tail.tail ++ content)
  have hisName : IsName rootName := by decide
  have hepilog : isEpilog .standard (['\n'].length + 1) ['\n'] = true := by decide
  -- one step for the start tag and one for the end tag
  obtain ⟨m, hm⟩ : ∃ m, (rootStart ++ content).length + 1 = (m + n) + 2 :=
    ⟨(rootStart ++ content).length - 1 - n, by
      have hpos : 0 < rootStart.length := by decide
      rw [List.length_append] at hn ⊢
      omega⟩
  have hcontent : scanContent .standard false ((rootStart ++ content).length + 1) [] []
      (rootStart ++ content) = (⟨.endTag rootName, '<' :: "/plist>\n".toList⟩ ::
        (evs.reverse ++ [⟨.startTag rootName, rootStart ++ content⟩]), some ['\n']) := by
    rw [hm, scanContent_rootStart, Nat.add_right_comm]
    exact (hscan (m + 1) _).trans (scanContent_end hisName)
  unfold Event.ofSource
  rw [hprolog]
  simp only [Source.ofChars, hcontent, hepilog, decide_true, Bool.and_true, if_true]
  simp

/-- A document whose content leads to a builder with a value is read as that value. -/
theorem readDocument_of_leads {b : Builder} {body : List Char} {v : Value}
    (h : Leads ⟨[rootName], .start, body ++ rootEnd⟩ ⟨[rootName], b, rootEnd⟩)
    (hroot : b.root = some v) :
    readDocument (.ofChars (documentTypeChars ++ (rootStart ++ (body ++ rootEnd)))) = .ok v := by
  -- the content, and the line feed in front of the end tag
  obtain ⟨n, evs, hn, hscan, hbuild⟩ := h.trans (.indent [rootName] b 0 "/plist>\n".toList)
  have hsteps : n ≤ (rootStart ++ (body ++ rootEnd)).length - 1 := by
    have hlen : rootStart.length = 21 := by decide
    simp only [List.length_append] at hn ⊢
    omega
  have hevents := ofSource_of_scan hsteps hscan
  generalize Source.ofChars (documentTypeChars ++ (rootStart ++ (body ++ rootEnd))) = src at hevents
  have hfold : (⟨.startTag rootName, rootStart ++ (body ++ rootEnd)⟩ ::
      (evs ++ [⟨.endTag rootName, '<' :: "/plist>\n".toList⟩]) : List Event).foldlM
      (fun b e => Builder.step src b e) Builder.start =
      .ok { b with chars := ['\n'] :: b.chars } := by
    rw [List.foldlM_cons, Leads.step_of_take (Builder.take_root b).1]
    show List.foldlM _ _ _ = _
    rw [List.foldlM_append, hbuild src]
    exact @Leads.foldlM_single _ _ _ ('<' :: "/plist>\n".toList) (Builder.take_root _).2 src
  rw [readDocument, hevents]
  show Except.bind (List.foldlM _ _ _) _ = _
  rw [hfold]
  simp only [Except.bind, hroot]

/-! ## Bytes -/

theorem isPlain_lead {ls : List Line} (h : ∀ l ∈ ls, ∀ c ∈ l.chars, IsPlain c) :
    ∀ c ∈ ls.flatMap Line.lead, IsPlain c := by
  intro c hc
  obtain ⟨l, hl, hc⟩ := List.mem_flatMap.mp hc
  rcases List.mem_cons.mp hc with rfl | hc
  · decide
  · rcases List.mem_append.mp hc with hc | hc
    · rw [(List.mem_replicate.mp hc).2]
      decide
    · exact h l hl c hc

/-- The bytes of lines that are taken as a value are read as that value. -/
theorem read_render {ls : List Line} {v : Value} (h : Reads ls v) :
    read (Utf8.encodeChars (render ls)) = .ok v := by
  have hplain : ∀ c ∈ documentTypeChars ++ (rootStart ++ (ls.flatMap Line.lead ++ rootEnd)),
      IsPlain c := by
    intro c hc
    have hstart : ∀ c ∈ rootStart, IsPlain c := forall_of_all (by decide)
    have hend : ∀ c ∈ rootEnd, IsPlain c := forall_of_all (by decide)
    rcases List.mem_append.mp hc with hc | hc
    · exact isPlain_documentTypeChars c hc
    · rcases List.mem_append.mp hc with hc | hc
      · exact hstart c hc
      · rcases List.mem_append.mp hc with hc | hc
        · exact isPlain_lead h.plain c hc
        · exact hend c hc
  obtain ⟨chars, hleads⟩ := h.leads [rootName] .start rootEnd (List.cons_ne_nil _ _) rfl
  rw [render_eq, read, Source.read_encodeChars hplain]
  exact readDocument_of_leads hleads rfl

/-- A tree of scalars that survive is written, and read as what is left of it. -/
theorem exists_write {P : Scalar → Prop} {f : Scalar → Scalar} (hf : Survives P f) {v : Value}
    (hv : v.Over P (TextKeys Text.IsLegal)) (hdepth : v.depth ≤ writeDepth) (sortKeys : Bool) :
    ∃ bytes, write sortKeys v = .ok bytes ∧
      read bytes = .ok ((v.arranged sortKeys).transform f Value.mergeEntries) := by
  obtain ⟨ls, hls, hreads⟩ := exists_reads hf hv 0 (by rwa [Nat.zero_add])
  refine ⟨Utf8.encodeChars (render ls), ?_, read_render hreads⟩
  rw [write, hls]
  rfl

theorem survives_normal : Survives IsExpressible Scalar.normal := by
  intro s hs level
  cases s with
  | null => exact hs.elim
  | bool b => exact reads_bool level b
  | int n => exact reads_int level hs.1 hs.2
  | real x => exact hs.elim
  | text t => exact reads_text level hs
  | data bytes => exact reads_data level bytes
  | date t => exact reads_date level hs
  | uid n => exact hs.elim

end Xml

/-! ## Documents -/

namespace Encoding

theorem xml_write_of_ok {g : Graph} {options : WriteOptions} {source : Selector}
    {bytes : List UInt8} (h : Xml.write options.sortKeys g.value = .ok bytes) :
    xml.write options ⟨source, some g⟩ = .ok bytes := by
  show (Xml.write options.sortKeys g.value).mapError WriteFailure.xml = _
  rw [h]
  rfl

theorem xml_read_of_ok {bytes : List UInt8} {v : Value} (h : Xml.read bytes = .ok v) :
    xml.read bytes = .ok ⟨.only .xml, some (.ofValue v)⟩ := by
  rw [read]
  simp only [h]

/-- A tree that XML can express is written without a fault, and what is read is exactly what is
    left of the tree.  Without sorting, `arranged` is the tree itself. -/
theorem xml_roundTrip (v : Value) (hv : v.Over Xml.IsExpressible (TextKeys Text.IsLegal))
    (hdepth : v.depth ≤ 400) (options : WriteOptions) (source : Selector) :
    ∃ bytes g, xml.write options ⟨source, some (Graph.ofValue v)⟩ = .ok bytes ∧
      xml.read bytes = .ok ⟨.only .xml, some g⟩ ∧
      g.value = (v.arranged options.sortKeys).normal := by
  have hlimit : 400 ≤ Xml.writeDepth := by decide
  obtain ⟨bytes, hwrite, hread⟩ := Xml.exists_write Xml.survives_normal hv
    (Nat.le_trans hdepth hlimit) options.sortKeys
  have harranged : (v.arranged options.sortKeys).Over Xml.IsExpressible (TextKeys Text.IsLegal) :=
    hv.arranged options.sortKeys fun _ _ hperm hkeys => hkeys.perm hperm
  have hover : (v.arranged options.sortKeys).normal.Over (fun _ => True) (fun _ => True) :=
    harranged.transform _ _ (fun _ _ => trivial) fun es hes =>
      ⟨trivial, (Value.mergeEntries_spec (R := fun _ => True) (fun _ _ => trivial) hes).2⟩
  refine ⟨bytes, _, xml_write_of_ok ?_, xml_read_of_ok hread, Graph.value_ofValue hover⟩
  rw [Graph.value_ofValue hv]
  exact hwrite

/-- Two keys that differ in a line break only become one, in the place of the first and with the
    value of the second. -/
theorem xml_roundTrip_merged :
    ∃ bytes g, xml.write {} ⟨.auto, some (.ofValue (.dict [
        (.text (Text.ofString "a\r"), .text (Text.ofString "<]]>\r\n")),
        (.text (Text.ofString "when"), .date ⟨2024, 2, 29, 12, 30, 0, 250000⟩),
        (.text (Text.ofString "a\n"), .array [.bool true, .int (-1), .data [1, 2, 3, 4]])]))⟩ =
          .ok bytes ∧
      xml.read bytes = .ok ⟨.only .xml, some g⟩ ∧
      g.value = .dict [
        (.text (Text.ofString "a\n"), .array [.bool true, .int (-1), .data [1, 2, 3, 4]]),
        (.text (Text.ofString "when"), .date ⟨2024, 2, 29, 12, 30, 0, 0⟩)] := by
  have hlegal (s : String) (h : ∀ c ∈ s.toList, Xml.isLegal c = true) :
      (Text.ofString s).IsLegal := ⟨s.toList, rfl, h⟩
  obtain ⟨bytes, g, hwrite, hread, hvalue⟩ := xml_roundTrip (.dict [
      (.text (Text.ofString "a\r"), .text (Text.ofString "<]]>\r\n")),
      (.text (Text.ofString "when"), .date ⟨2024, 2, 29, 12, 30, 0, 250000⟩),
      (.text (Text.ofString "a\n"), .array [.bool true, .int (-1), .data [1, 2, 3, 4]])]) (by
    refine .dict ⟨by decide, fun k hk => ?_⟩ fun e he => ?_
    · simp only [List.map_cons, List.map_nil, List.mem_cons, List.not_mem_nil, or_false] at hk
      rcases hk with rfl | rfl | rfl
      · exact ⟨_, rfl, hlegal "a\r" (forall_of_all (by decide))⟩
      · exact ⟨_, rfl, hlegal "when" (forall_of_all (by decide))⟩
      · exact ⟨_, rfl, hlegal "a\n" (forall_of_all (by decide))⟩
    · simp only [List.mem_cons, List.not_mem_nil, or_false] at he
      rcases he with rfl | rfl | rfl
      · exact .scalar (hlegal "<]]>\r\n" (forall_of_all (by decide)))
      · exact .scalar (by decide : DateTime.IsValid ⟨2024, 2, 29, 12, 30, 0, 250000⟩)
      · refine .array fun w hw => ?_
        simp only [List.mem_cons, List.not_mem_nil, or_false] at hw
        rcases hw with rfl | rfl | rfl
        · exact .scalar trivial
        · exact .scalar ⟨by decide, by decide⟩
        · exact .scalar trivial) (by decide) {} .auto
  exact ⟨bytes, g, hwrite, hread, hvalue⟩

end Encoding

end PropertyList
