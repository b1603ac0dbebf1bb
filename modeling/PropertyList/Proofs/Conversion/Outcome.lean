/-
  PropertyList.Proofs.Conversion.Outcome

  How writing ends for a document that is a tree.  It gives bytes exactly if the
  encoding can express the tree.  Otherwise there is a mismatch of the format, but
  for two faults that take another way: a text with surrogates in a binary list, and
  an integer that is out of range and has too many digits to be named in a message.
-/
import PropertyList.Conversion
import PropertyList.Proofs.Binary.Faults
import PropertyList.Proofs.Json.Faults
import PropertyList.Proofs.Xml.Faults
import PropertyList.Proofs.Graph.OfValue

namespace PropertyList

/-- The classes in which writing a tree can fail other than as a mismatch of the format, and what
    the tree mentions then. -/
inductive Escapes : Encoding → Value → FailureClass → Prop where
  | text {v : Value} {t : Text} (h : v.Mentions (.text t)) (ht : ¬ t.IsEncodable) :
      Escapes .binary v .encoding
  | int {e : Encoding} {v : Value} {n : Int} (he : e ≠ .json) (h : v.Mentions (.int n))
      (hn : Integer.isPrintable n = false) : Escapes e v .number
  | uid {v : Value} {n : Nat} (h : v.Mentions (.uid n)) (hn : Integer.isPrintable n = false) :
      Escapes .binary v .number

theorem Escapes.ofFailure_eq {e : Encoding} {v : Value} {c : FailureClass} (h : Escapes e v c) :
    Stage.ofFailure c = .unknownFailure := by
  cases h <;> rfl

/-- How writing a tree fails, if it does: as a mismatch of the format, or in another class. -/
def Rejects (e : Encoding) (v : Value) (f : WriteFailure) : Prop :=
  f.failureClass = .format ∨ Escapes e v f.failureClass

section

variable {g : Graph} {v : Value} {options : WriteOptions}

theorem Binary.Blames.rejects {f : Binary.WriteFault} (h : Binary.Blames v f) :
    Rejects .binary v (.binary f) := by
  cases f with
  | numbering f =>
    cases f with
    | tooDeep => exact absurd rfl h.deep
    | unorderedKeys => exact .inl rfl
    | keyNotText => exact .inl rfl
  | record f =>
    cases f with
    | surrogate =>
      obtain ⟨t, ht, hnot⟩ := h.surrogate rfl
      exact .inr (.text ht hnot)
    | outOfRange n =>
      rw [Rejects, WriteFailure.failureClass]
      split
      · exact .inl rfl
      · next hn =>
        -- a number that is too long for a record, and too long for the message about it
        have hlong := Bool.eq_false_iff.mpr hn
        rcases h.range n rfl with hint | ⟨m, rfl, huid⟩
        · exact .inr (.int (by decide) hint hlong)
        · exact .inr (.uid huid hlong)

theorem Xml.Blames.rejects {f : Xml.WriteFault} (h : Xml.Blames v 0 f) (hv : v.IsTree)
    (hdepth : v.depth ≤ Xml.writeDepth) : Rejects .xml v (.xml f) := by
  cases f with
  | tooDeep =>
    rcases h.deep rfl with hback | hdeep
    · exact absurd hv hback
    · omega
  | outOfRange n =>
    rw [Rejects, WriteFailure.failureClass]
    split
    · exact .inl rfl
    · next hn => exact .inr (.int (by decide) (h.range n rfl) (Bool.eq_false_iff.mpr hn))
  | _ => exact .inl rfl

theorem Json.Blames.rejects {layout : Json.Layout} {f : Json.WriteFault} (h : Json.Blames v 0 f)
    (hdepth : v.depth ≤ Json.writeDepth) : Rejects .json v (.json layout f) := by
  cases f with
  | tooDeep =>
    have hdeep := h rfl
    omega
  | _ => exact .inl rfl

/-- Every encoding decides which trees it can express. -/
theorem decides_writeGraph (e : Encoding) (options : WriteOptions) (hv : g.Holds g.root v)
    (hdepth : v.depth ≤ 250) :
    Decides (e.Expresses options.sortKeys v) (Rejects e v) (e.writeGraph options g) := by
  cases e with
  | binary =>
    have hbudget : v.depth < Binary.numberingBudget := Nat.lt_of_le_of_lt hdepth (by decide)
    exact (Binary.decides_write options.sortKeys hv hbudget).mapError fun f hf => hf.rejects
  | xml =>
    have hlimit : v.depth ≤ Xml.writeDepth := Nat.le_trans hdepth (by decide)
    rw [Encoding.writeGraph, hv.value_eq]
    refine ((Xml.decides_write options.sortKeys v).mapError fun f hf => ?_).congr
      (and_iff_left hlimit)
    exact hf.rejects hv.isTree hlimit
  | json =>
    have hlimit : v.depth ≤ Json.writeDepth := Nat.le_trans hdepth (by decide)
    rw [Encoding.writeGraph, hv.value_eq]
    refine ((Json.decides_write options.layout options.sortKeys v).mapError fun f hf => ?_).congr
      (and_iff_left hlimit)
    exact hf.rejects hlimit

end

/-! ## Conversions -/

section

variable {settings : Settings} {payload : Payload} {selector : Selector} {target : Encoding}
  {read : List UInt8 → Except ReadFailure Document} {chosen : List String} {d : Document}

theorem outcome_of_write_ok (hchoose : chooseEncodings payload.bytes selector = (read, target, chosen))
    (hread : read payload.bytes = .ok d) {bytes : List UInt8}
    (hwrite : target.write settings.writeOptions d = .ok bytes) :
    (convert settings payload selector).outcome = ⟨.success, .success⟩ := by
  simp only [convert, hchoose, hread, hwrite]

theorem outcome_of_write_error
    (hchoose : chooseEncodings payload.bytes selector = (read, target, chosen))
    (hread : read payload.bytes = .ok d) {f : WriteFailure}
    (hwrite : target.write settings.writeOptions d = .error f) :
    (convert settings payload selector).outcome = ⟨.success, .ofFailure f.failureClass⟩ := by
  simp only [convert, hchoose, hread, hwrite]

end

/-- Every encoding gives bytes for a tree exactly if it can express it, and fails otherwise as a
    mismatch of the format or as what can escape.  So a conversion whose input stage succeeds with
    a tree ends with the status 0 exactly if the target can express it, and otherwise with a
    mismatch and the status 2, or, if the tree mentions what can escape, as an unknown failure. -/
theorem write_outcome {g : Graph} {v : Value} (hv : g.Holds g.root v) (hdepth : v.depth ≤ 250) :
    (∀ (e : Encoding) (options : WriteOptions) (source : Selector),
      Decides (e.Expresses options.sortKeys v) (Rejects e v) (e.write options ⟨source, some g⟩)) ∧
    ∀ (settings : Settings) (payload : Payload) (selector source : Selector)
      (read : List UInt8 → Except ReadFailure Document) (target : Encoding) (chosen : List String),
      chooseEncodings payload.bytes selector = (read, target, chosen) →
      read payload.bytes = .ok ⟨source, some g⟩ →
      let outcome := (convert settings payload selector).outcome
      outcome.input = .success ∧
      (target.Expresses settings.sortKeys v ↔ outcome.exit.1 = 0) ∧
      (¬ target.Expresses settings.sortKeys v →
        outcome.output = .formatMismatch ∧ outcome.exit.1 = 2 ∨
        outcome.output = .unknownFailure ∧ outcome.exit.1 = 1 ∧ ∃ c, Escapes target v c) := by
  have hwrite (e : Encoding) (options : WriteOptions) (source : Selector) :
      Decides (e.Expresses options.sortKeys v) (Rejects e v) (e.write options ⟨source, some g⟩) :=
    decides_writeGraph e options hv hdepth
  refine ⟨hwrite, ?_⟩
  intro settings payload selector source read target chosen hchoose hread
  have hdecides := hwrite target settings.writeOptions source
  cases hresult : target.write settings.writeOptions ⟨source, some g⟩ with
  | ok bytes =>
    rw [hresult] at hdecides
    have hexpresses : target.Expresses settings.sortKeys v := hdecides.isOk_iff.mp rfl
    rw [outcome_of_write_ok hchoose hread hresult]
    exact ⟨rfl, iff_of_true hexpresses rfl, fun hnot => absurd hexpresses hnot⟩
  | error f =>
    rw [hresult] at hdecides
    rw [outcome_of_write_error hchoose hread hresult]
    cases hdecides with
    | error hnot hf =>
      rcases hf with hformat | hescapes
      · rw [hformat]
        exact ⟨rfl, iff_of_false hnot (by decide), fun _ => .inl ⟨rfl, rfl⟩⟩
      · rw [hescapes.ofFailure_eq]
        exact ⟨rfl, iff_of_false hnot (by decide), fun _ => .inr ⟨rfl, rfl, _, hescapes⟩⟩

/-- Half of a surrogate pair in a list, which JSON can name and no encoding can express: a mismatch
    of the format for XML, but an unknown failure for a binary list. -/
theorem write_outcome_surrogate :
    ∃ payload v, payload.bytes = "[\"\\ud800\"]".toUTF8.toList ∧
      readRecognized payload.bytes = .ok ⟨.only .json, some (.ofValue v)⟩ ∧
      ¬ Encoding.xml.Expresses false v ∧ (convert {} payload (.only .xml)).outcome.exit.1 = 2 ∧
      ¬ Encoding.binary.Expresses false v ∧ Escapes .binary v .encoding ∧
      (convert {} payload (.only .binary)).outcome = ⟨.success, .unknownFailure⟩ ∧
      (convert {} payload (.only .binary)).outcome.exit.1 = 1 := by
  let payload : Payload := { bytes := [0x5B, 0x22, 0x5C, 0x75, 0x64, 0x38, 0x30, 0x30, 0x22, 0x5D] }
  let v : Value := .array [.text [.surrogate 0]]
  have hread : readRecognized payload.bytes = .ok ⟨.only .json, some (.ofValue v)⟩ := rfl
  have hv : (Graph.ofValue v).Holds (Graph.ofValue v).root v :=
    Graph.holds_ofValue (P := fun _ => True) (K := fun _ => True)
      (.array (List.forall_mem_singleton.mpr (.scalar trivial)))
  have hconvert := (write_outcome hv (by decide)).2 {} payload
  obtain ⟨-, hxml, -⟩ := hconvert (.only .xml) (.only .json) _ _ _ rfl hread
  obtain ⟨-, hbinary, hescapes⟩ := hconvert (.only .binary) (.only .json) _ _ _ rfl hread
  have hxmlExit : (convert {} payload (.only .xml)).outcome.exit.1 = 2 := by decide +kernel
  have houtcome : (convert {} payload (.only .binary)).outcome = ⟨.success, .unknownFailure⟩ := by
    decide +kernel
  have hexit : (convert {} payload (.only .binary)).outcome.exit.1 = 1 := by decide +kernel
  have hnot : ¬ Encoding.binary.Expresses false v := by
    intro h
    rw [hbinary.mp h] at hexit
    cases hexit
  refine ⟨payload, v, by decide +kernel, hread, ?_, hxmlExit, hnot, ?_, houtcome, hexit⟩
  · intro h
    rw [hxml.mp h] at hxmlExit
    cases hxmlExit
  · refine .text (.item List.mem_cons_self (.scalar (.text [.surrogate 0]))) ?_
    rintro ⟨cs, hcs⟩
    cases cs with
    | nil => cases hcs
    | cons c cs => cases (List.cons.inj hcs).1

end PropertyList
