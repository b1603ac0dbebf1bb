/-
  PropertyList.Proofs.Conversion.Chain

  Conversions one after the other.  A tree that every encoding can express goes
  through any number of them unharmed: what comes out at the end is what writing
  the tree in the last encoding gives, whatever it went through before.
-/
import PropertyList.Conversion
import PropertyList.Proofs.Binary.Rewriting
import PropertyList.Proofs.Binary.Sorted
import PropertyList.Proofs.Recognition

namespace PropertyList

/-! ## Portable trees -/

/-- A code point that every encoding keeps: a tab, a line feed, or a character from the space on
    except the last two code points of the basic plane. -/
def CodePoint.IsPortable : CodePoint → Prop
  | scalar c =>
    (c.toNat = 0x09 ∨ c.toNat = 0x0A ∨ 0x20 ≤ c.toNat) ∧ c.toNat ≠ 0xFFFE ∧ c.toNat ≠ 0xFFFF
  | surrogate _ => False

/-- A text that every encoding keeps. -/
def Text.IsPortable (t : Text) : Prop := ∀ c ∈ t, c.IsPortable

instance (c : CodePoint) : Decidable c.IsPortable :=
  match c with
  | .scalar _ => inferInstanceAs (Decidable (_ ∧ _))
  | .surrogate _ => inferInstanceAs (Decidable False)

instance (t : Text) : Decidable t.IsPortable := inferInstanceAs (Decidable (∀ c ∈ t, c.IsPortable))

/-- A scalar that every encoding keeps: a boolean, an integer of 64 bits, or a text. -/
def Scalar.IsPortable : Scalar → Prop
  | bool _ => True
  | int n => -0x8000000000000000 ≤ n ∧ n < 0x10000000000000000
  | text t => t.IsPortable
  | null => False
  | real _ => False
  | data _ => False
  | date _ => False
  | uid _ => False

/-- A tree that every encoding keeps. -/
def Value.IsPortable (v : Value) : Prop := v.Over Scalar.IsPortable (TextKeys Text.IsPortable)

namespace Text.IsPortable

variable {t : Text}

theorem isLegal (h : t.IsPortable) : t.IsLegal := by
  induction t with
  | nil => exact ⟨[], rfl, List.forall_mem_nil _⟩
  | cons c t ih =>
    obtain ⟨cs, rfl, hcs⟩ := ih fun d hd => h d (List.mem_cons_of_mem _ hd)
    have hc := h c List.mem_cons_self
    cases c with
    | surrogate s => exact hc.elim
    | scalar c =>
      refine ⟨c :: cs, rfl, List.forall_mem_cons.mpr ⟨?_, hcs⟩⟩
      obtain ⟨hlow, hnot⟩ := hc
      simp only [Xml.isLegal, Bool.or_eq_true, Bool.and_eq_true, decide_eq_true_eq]
      rcases hlow with hc | hc | hc
      · exact .inl (.inl (.inl hc))
      · exact .inl (.inl (.inr hc))
      · exact .inr ⟨⟨hc, hnot.1⟩, hnot.2⟩

theorem isEncodable (h : t.IsPortable) : t.IsEncodable := by
  obtain ⟨cs, hcs, -⟩ := h.isLegal
  exact ⟨cs, hcs⟩

theorem unifyBreaks_eq (h : t.IsPortable) : t.unifyBreaks = t := by
  apply unifyBreaks_of_not_mem
  intro hreturn
  have hlow : ¬ CodePoint.IsPortable (.scalar '\r') := by
    rintro ⟨hlow, -⟩
    revert hlow
    decide
  exact hlow (h _ hreturn)

end Text.IsPortable

namespace Value.IsPortable

variable {v : Value}

theorem isStorable (h : v.IsPortable) : v.Over Scalar.IsStorable (TextKeys Text.IsEncodable) := by
  refine h.mono (fun s hs => ?_) fun _ hkeys => hkeys.mono fun _ => Text.IsPortable.isEncodable
  cases s with
  | bool b => trivial
  | int n => exact hs
  | text t => exact Text.IsPortable.isEncodable hs
  | _ => exact hs.elim

theorem isXml (h : v.IsPortable) : v.Over Xml.IsExpressible (TextKeys Text.IsLegal) := by
  refine h.mono (fun s hs => ?_) fun _ hkeys => hkeys.mono fun _ => Text.IsPortable.isLegal
  cases s with
  | bool b => trivial
  | int n => exact hs
  | text t => exact Text.IsPortable.isLegal hs
  | _ => exact hs.elim

theorem isJson (h : v.IsPortable) : v.Over Json.IsExpressible (TextKeys Text.IsEncodable) := by
  refine h.mono (fun s hs => ?_) fun _ hkeys => hkeys.mono fun _ => Text.IsPortable.isEncodable
  cases s with
  | bool b => trivial
  | int n => exact Xml.isPrintable_of_stored hs.1 hs.2
  | text t => exact Text.IsPortable.isEncodable hs
  | _ => exact hs.elim

/-- XML loses nothing of a portable tree. -/
theorem normal_eq (h : v.IsPortable) : v.normal = v := by
  refine normal_eq_self (h.mono (fun s hs => ?_) fun _ hkeys =>
    hkeys.mono fun _ => Text.IsPortable.unifyBreaks_eq)
  cases s with
  | bool b => rfl
  | int n => rfl
  | text t => exact congrArg Scalar.text (Text.IsPortable.unifyBreaks_eq hs)
  | _ => exact hs.elim

theorem arranged (h : v.IsPortable) (sortKeys : Bool) : (v.arranged sortKeys).IsPortable :=
  Over.arranged sortKeys h fun _ _ hperm hkeys => hkeys.perm hperm

/-- No two different portable trees are the same. -/
theorem eq_of_same (h : v.IsPortable) {w : Value} (hw : w.Same v) : w = v := by
  refine hw.eq_of_over h fun s hs t ht => ?_
  cases s with
  | real x => exact hs.elim
  | _ => cases t <;> exact ht

end Value.IsPortable

/-! ## Writing alike -/

/-- Graphs that every encoding writes alike. -/
def Graph.WritesAs (options : WriteOptions) (g g' : Graph) : Prop :=
  ∀ e : Encoding, e.writeGraph options g = e.writeGraph options g'

section Trees

variable {v : Value} {options : WriteOptions}

/-- A graph that binary lists store like a tree, and that holds the tree as it is listed, is
    written like the tree. -/
theorem writesAs_of_value {g : Graph} (hv : v.IsPortable)
    (hvalue : g.value = v.arranged options.sortKeys)
    (hbinary : Binary.write g options.sortKeys = Binary.write (.ofValue v) options.sortKeys) :
    g.WritesAs options (.ofValue v) := by
  have hsame : (Graph.ofValue v).value = v := Graph.value_ofValue hv
  intro e
  cases e with
  | binary => rw [Encoding.writeGraph, Encoding.writeGraph, hbinary]
  | xml =>
    rw [Encoding.writeGraph, Encoding.writeGraph, hvalue, hsame, Xml.write_arranged hv]
  | json =>
    rw [Encoding.writeGraph, Encoding.writeGraph, hvalue, hsame, Json.write_arranged hv]

/-- A tree is written like the tree as it is listed. -/
theorem writesAs_arranged (hv : v.IsPortable) :
    (Graph.ofValue (v.arranged options.sortKeys)).WritesAs options (.ofValue v) := by
  have harranged := hv.arranged options.sortKeys
  refine writesAs_of_value hv (Graph.value_ofValue harranged) ?_
  cases hsort : options.sortKeys with
  | false => rfl
  | true =>
    rw [hsort] at harranged
    apply Binary.write_sorted_congr (Graph.unshared_ofValue harranged) (Graph.unshared_ofValue hv)
      (Graph.holds_ofValue harranged) (Graph.holds_ofValue hv)
    · exact Binary.hasTextKeys_of_over harranged.isStorable
    · exact Binary.hasTextKeys_of_over hv.isStorable
    · exact v.sorted_sorted

/-- What is read from the binary list of a tree is written like the tree. -/
theorem Binary.Stored.exists_writesAs {objects : Numbering} {rs : List Record} {bytes : List UInt8}
    (h : Stored (.ofValue v) options.sortKeys objects rs bytes) (hv : v.IsPortable)
    (hlen : bytes.length < 0x8000000000000000) :
    ∃ g, Binary.read bytes = .ok g ∧ g.WritesAs options (.ofValue v) := by
  obtain ⟨nodes, hread, hfaithful, hfilled⟩ := h.read hlen
  obtain ⟨g, w, hread', hw, hsame⟩ := h.exists_read (Graph.holds_ofValue hv.isStorable)
    (hasTextKeys_of_over hv.isStorable) hlen
  obtain rfl := Except.ok.inj (hread.symm.trans hread')
  refine ⟨graphOf nodes 0, hread, writesAs_of_value hv ?_ ?_⟩
  · rw [hw.value_eq]
    exact (hv.arranged options.sortKeys).eq_of_same hsame
  · rw [h.write_reread hfaithful hfilled, h.write]

/-- A portable tree can be written in every encoding, and what is read from its bytes is written
    like the tree itself. -/
theorem exists_write_read (hv : v.IsPortable) (hroot : v.IsContainer) (hdepth : v.depth ≤ 250)
    (options : WriteOptions) (e : Encoding) :
    ∃ bytes, e.writeGraph options (.ofValue v) = .ok bytes ∧
      ((e = .binary → bytes.length < 0x8000000000000000) →
        ∃ g, readRecognized bytes = .ok ⟨.only e, some g⟩ ∧ g.WritesAs options (.ofValue v)) := by
  have hvalue : (Graph.ofValue v).value = v := Graph.value_ofValue hv
  cases e with
  | binary =>
    obtain ⟨objects, rs, bytes, hstored⟩ := Binary.exists_stored
      (Graph.holds_ofValue hv.isStorable) hv.isStorable (by omega) options.sortKeys
    refine ⟨bytes, ?_, fun hlen => ?_⟩
    · rw [Encoding.writeGraph, hstored.write]
      rfl
    · obtain ⟨g, hread, hwrites⟩ := hstored.exists_writesAs hv (hlen rfl)
      refine ⟨g, ?_, hwrites⟩
      have hrecognized : recognize? bytes = some .binary := if_pos hstored.header
      simp only [readRecognized, hrecognized]
      exact Encoding.binary_read_of_ok hstored.header hread
  | xml =>
    have hlimit : 250 ≤ Xml.writeDepth := by decide
    obtain ⟨bytes, hwrite, hread⟩ := Xml.exists_write Xml.survives_normal hv.isXml
      (Nat.le_trans hdepth hlimit) options.sortKeys
    -- a portable tree has no line breaks or fractions that XML could lose
    have hnormal := (hv.arranged options.sortKeys).normal_eq
    rw [Value.normal] at hnormal
    rw [hnormal] at hread
    refine ⟨bytes, ?_, fun _ => ⟨_, ?_, writesAs_arranged hv⟩⟩
    · rw [Encoding.writeGraph, hvalue, hwrite]
      rfl
    · simp only [readRecognized, Xml.recognize?_write hwrite]
      exact Encoding.xml_read_of_ok hread
  | json =>
    have hlimit : 250 ≤ Json.writeDepth := by decide
    obtain ⟨bytes, hwrite, hread⟩ := Json.exists_write hv.isJson (Nat.le_trans hdepth hlimit)
      options.layout options.sortKeys
    refine ⟨bytes, ?_, fun _ => ⟨_, ?_, writesAs_arranged hv⟩⟩
    · rw [Encoding.writeGraph, hvalue, hwrite]
      rfl
    · simp only [readRecognized, Json.recognize?_write hroot hwrite]
      exact Encoding.json_read_of_ok hread

end Trees

/-! ## Chains -/

/-- A conversion to an encoding succeeds if reading and writing do. -/
theorem convert_only {settings : Settings} {payload : Payload} {e : Encoding} {d : Document}
    {bytes : List UInt8} (hread : readRecognized payload.bytes = .ok d)
    (hwrite : e.write settings.writeOptions d = .ok bytes) :
    (convert settings payload (.only e)).outcome = ⟨.success, .success⟩ ∧
      (convert settings payload (.only e)).rendered = some ⟨bytes, e⟩ := by
  constructor
  · simp only [convert, chooseEncodings, hread, hwrite]
  · simp only [convert, chooseEncodings, hread, hwrite]

/-- Conversions to one encoding after the other, each of what the one before it rendered; `none`
    if one of them has an exit status other than zero. -/
def convertAll (settings : Settings) (source : String) :
    List Encoding → List UInt8 → Option (List UInt8)
  | [], bytes => some bytes
  | e :: es, bytes =>
    let c := convert settings ⟨bytes, source⟩ (.only e)
    if c.outcome.exit.1 = 0 then
      c.rendered.bind fun r => convertAll settings source es r.bytes
    else none

theorem convertAll_cons {settings : Settings} {source : String} {e : Encoding} {es : List Encoding}
    {bytes next : List UInt8} {d : Document} (hread : readRecognized bytes = .ok d)
    (hwrite : e.write settings.writeOptions d = .ok next) :
    convertAll settings source (e :: es) bytes = convertAll settings source es next := by
  obtain ⟨houtcome, hrendered⟩ := @convert_only settings ⟨bytes, source⟩ e d next hread hwrite
  have hstatus : (convert settings ⟨bytes, source⟩ (.only e)).outcome.exit.1 = 0 :=
    (Outcome.exit_eq_zero_iff _).mpr (by rw [houtcome]; rfl)
  rw [convertAll, if_pos hstatus, hrendered]
  rfl

/-- A chain that starts from bytes that a portable tree was written as ends with the bytes that the
    tree is written as in the last encoding. -/
theorem exists_convertAll {v : Value} (hv : v.IsPortable) (hroot : v.IsContainer)
    (hdepth : v.depth ≤ 250) (settings : Settings) (source : String) (hops : List Encoding)
    (first : Encoding) {start : List UInt8}
    (hsize : .binary ∈ first :: hops → ∀ bytes,
      Encoding.binary.writeGraph settings.writeOptions (.ofValue v) = .ok bytes →
        bytes.length < 0x8000000000000000)
    (hstart : first.writeGraph settings.writeOptions (.ofValue v) = .ok start) :
    ∃ final, (hops.getLastD first).writeGraph settings.writeOptions (.ofValue v) = .ok final ∧
      convertAll settings source hops start = some final := by
  induction hops generalizing first start with
  | nil => exact ⟨start, hstart, rfl⟩
  | cons e es ih =>
    have hwrite := exists_write_read hv hroot hdepth settings.writeOptions
    -- the bytes so far are read as a graph that is written like the tree
    obtain ⟨bytes, hbytes, hread⟩ := hwrite first
    obtain rfl := Except.ok.inj (hstart.symm.trans hbytes)
    obtain ⟨g, hg, hwrites⟩ := hread (by
      rintro rfl
      exact hsize List.mem_cons_self start hstart)
    obtain ⟨next, hnext, -⟩ := hwrite e
    obtain ⟨final, hfinal, hchain⟩ := ih e (fun hmem => hsize (List.mem_cons_of_mem _ hmem)) hnext
    refine ⟨final, ?_, ?_⟩
    · rw [List.getLastD_cons]
      exact hfinal
    · rw [convertAll_cons hg ((hwrites e).trans hnext)]
      exact hchain

/-- Every chain of conversions succeeds that starts from a portable tree in some encoding, and it
    ends with the bytes that writing the tree in the last encoding gives.  A binary list on the way
    has less than `2 ^ 63` bytes, as everything in memory does. -/
theorem convertAll_eq_write (v : Value) (hv : v.IsPortable) (hroot : v.IsContainer)
    (hdepth : v.depth ≤ 250) (settings : Settings) (source : String) (origin : Selector)
    (first : Encoding) (hops : List Encoding) (hne : hops ≠ [])
    (hsize : .binary ∈ first :: hops → ∀ bytes,
      Encoding.binary.write settings.writeOptions ⟨origin, some (.ofValue v)⟩ = .ok bytes →
        bytes.length < 0x8000000000000000) :
    ∃ start final,
      first.write settings.writeOptions ⟨origin, some (.ofValue v)⟩ = .ok start ∧
      (hops.getLast hne).write settings.writeOptions ⟨origin, some (.ofValue v)⟩ = .ok final ∧
      convertAll settings source hops start = some final := by
  obtain ⟨start, hstart, -⟩ := exists_write_read hv hroot hdepth settings.writeOptions first
  obtain ⟨final, hfinal, hchain⟩ :=
    exists_convertAll hv hroot hdepth settings source hops first hsize hstart
  rw [List.getLastD_eq_getLast?, List.getLast?_eq_some_getLast hne] at hfinal
  exact ⟨start, final, hstart, hfinal, hchain⟩

/-- A dictionary on its way through all encodings. -/
theorem convertAll_eq_write_pretty :
    ∃ start final,
      Encoding.json.write { layout := .pretty } ⟨.auto, some (.ofValue (.dict [
        (.text (Text.ofString "b"), .array [.bool true, .int 1, .int (-1)]),
        (.text (Text.ofString "a"), .text (Text.ofString "1 < 2\n"))]))⟩ = .ok start ∧
      Encoding.binary.write { layout := .pretty } ⟨.auto, some (.ofValue (.dict [
        (.text (Text.ofString "b"), .array [.bool true, .int 1, .int (-1)]),
        (.text (Text.ofString "a"), .text (Text.ofString "1 < 2\n"))]))⟩ = .ok final ∧
      convertAll { prettyJson := true } Settings.standardStream
        [.xml, .binary, .json, .binary] start = some final := by
  have hv : (Value.dict [
      (.text (Text.ofString "b"), .array [.bool true, .int 1, .int (-1)]),
      (.text (Text.ofString "a"), .text (Text.ofString "1 < 2\n"))]).IsPortable := by
    refine .dict ⟨by decide, fun k hk => ?_⟩ fun e he => ?_
    · simp only [List.map_cons, List.map_nil, List.mem_cons, List.not_mem_nil, or_false] at hk
      rcases hk with rfl | rfl
      · exact ⟨_, rfl, by decide⟩
      · exact ⟨_, rfl, by decide⟩
    · simp only [List.mem_cons, List.not_mem_nil, or_false] at he
      rcases he with rfl | rfl
      · refine .array fun w hw => ?_
        simp only [List.mem_cons, List.not_mem_nil, or_false] at hw
        rcases hw with rfl | rfl | rfl
        · exact .scalar trivial
        · exact .scalar ⟨by decide, by decide⟩
        · exact .scalar ⟨by decide, by decide⟩
      · exact .scalar (by decide : (Text.ofString "1 < 2\n").IsPortable)
  have hlength : (Encoding.binary.write { layout := .pretty }
      ⟨.auto, some (.ofValue (.dict [
        (.text (Text.ofString "b"), .array [.bool true, .int 1, .int (-1)]),
        (.text (Text.ofString "a"), .text (Text.ofString "1 < 2\n"))]))⟩).toOption.map
      List.length = some 80 := by decide +kernel
  refine convertAll_eq_write _ hv trivial (by decide)
    { prettyJson := true } Settings.standardStream .auto .json
    [.xml, .binary, .json, .binary] (by decide) fun _ bytes hbytes => ?_
  have hbytes' : Encoding.binary.write { layout := .pretty }
      ⟨.auto, some (.ofValue (.dict [
        (.text (Text.ofString "b"), .array [.bool true, .int 1, .int (-1)]),
        (.text (Text.ofString "a"), .text (Text.ofString "1 < 2\n"))]))⟩ = .ok bytes := hbytes
  rw [hbytes'] at hlength
  have hlen : bytes.length = 80 := Option.some.inj hlength
  rw [hlen]
  decide

end PropertyList
