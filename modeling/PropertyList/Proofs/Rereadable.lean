/-
  PropertyList.Proofs.Rereadable

  What all readers guarantee of the documents that they read: the keys of a dictionary
  are apart, and all scalars come back from a binary list as they are.  XML has dates to
  the second, JSON has none, and those of a binary list were read from real numbers.
-/
import PropertyList.Proofs.Binary.Trees
import PropertyList.Proofs.DateRounding
import PropertyList.Proofs.Json.Reading
import PropertyList.Proofs.Xml.Containers

namespace PropertyList

/-- A tree with distinct texts as keys, whose scalars come back from a binary list as they are. -/
abbrev Value.IsRereadable (v : Value) : Prop :=
  v.Over (fun s => s.reread? = some s) (TextKeys fun _ => True)

/-- What every step keeps holds after all of them. -/
theorem inv_of_foldlM {ε α σ : Type} {I : σ → Prop} {step : σ → α → Except ε σ}
    (hstep : ∀ s a s', I s → step s a = .ok s' → I s') {as : List α} {s s' : σ} (hs : I s)
    (h : as.foldlM step s = .ok s') : I s' := by
  induction as generalizing s with
  | nil =>
    obtain rfl := Except.ok.inj h
    exact hs
  | cons a as ih =>
    rw [List.foldlM_cons] at h
    obtain ⟨next, hnext, hrest⟩ := exists_of_bind_eq_ok h
    exact ih (hstep s a next hs hnext) hrest

/-! ## XML -/

namespace Xml

/-- What is known of a builder: the containers that are open, and the root. -/
structure Builder.Sound (b : Builder) : Prop where
  stack : ∀ o ∈ b.stack, o.content.value.IsRereadable
  root : ∀ v, b.root = some v → v.IsRereadable

namespace Builder

variable {b b' : Builder} {v : Value}

theorem sound_start : start.Sound := ⟨List.forall_mem_nil _, by rintro v ⟨⟩⟩

theorem Sound.put (h : b.Sound) (key : Option Text) (hv : v.IsRereadable) : (b.put key v).Sound := by
  obtain ⟨hstack, hroot⟩ := h
  rw [Builder.put]
  split
  · refine ⟨hstack, ?_⟩
    rintro w ⟨⟩
    exact hv
  · next items k outer heq =>
    rw [heq] at hstack
    obtain ⟨hfirst, hrest⟩ := List.forall_mem_cons.mp hstack
    exact ⟨List.forall_mem_cons.mpr ⟨hfirst.push hv, hrest⟩, hroot⟩
  · next entries k outer heq =>
    rw [heq] at hstack
    obtain ⟨hfirst, hrest⟩ := List.forall_mem_cons.mp hstack
    exact ⟨List.forall_mem_cons.mpr ⟨hfirst.setEntry trivial hv, hrest⟩, hroot⟩

theorem Sound.add (h : b.Sound) (hv : v.IsRereadable) (hb : b.add v = .ok b') : b'.Sound := by
  obtain ⟨-, -, hb⟩ := exists_of_bind_eq_ok hb
  obtain rfl := Except.ok.inj hb
  have hfree : Sound { b with key := none } := ⟨h.stack, h.root⟩
  exact hfree.put b.key hv

theorem Sound.opened (h : b.Sound) {content : Content} (hcontent : content.value.IsRereadable)
    (hb : b.opened content = .ok b') : b'.Sound := by
  obtain ⟨-, -, hb⟩ := exists_of_bind_eq_ok hb
  obtain rfl := Except.ok.inj hb
  exact ⟨List.forall_mem_cons.mpr ⟨hcontent, h.stack⟩, h.root⟩

theorem Sound.closed (h : b.Sound) (hb : b.closed = .ok b') : b'.Sound := by
  rw [Builder.closed] at hb
  split at hb
  · cases hb
  next content key outer heq =>
  obtain rfl := Except.ok.inj hb
  obtain ⟨hstack, hroot⟩ := h
  rw [heq] at hstack
  obtain ⟨hfirst, hrest⟩ := List.forall_mem_cons.mp hstack
  have houter : Sound { b with stack := outer } := ⟨hrest, hroot⟩
  apply houter.put
  cases content with
  | array items => exact hfirst
  | dict entries => exact hfirst

theorem Sound.setKey (h : b.Sound) (hb : b.setKey = .ok b') : b'.Sound := by
  rw [Builder.setKey] at hb
  split at hb
  case h_4 =>
    obtain rfl := Except.ok.inj hb
    exact ⟨h.stack, h.root⟩
  all_goals cases hb

theorem Sound.addScalar (h : b.Sound) {s : Option Scalar}
    (hs : ∀ t, s = some t → t.reread? = some t) (hb : b.addScalar s = .ok b') : b'.Sound := by
  cases s with
  | none => cases hb
  | some t =>
    have hcleared : Sound { b with chars := [] } := ⟨h.stack, h.root⟩
    exact hcleared.add (.scalar (hs t rfl)) hb

theorem Sound.startTag (h : b.Sound) {e : Option Element} (hb : b.startTag e = .ok b') :
    b'.Sound := by
  have hcleared : Sound { b with chars := [] } := ⟨h.stack, h.root⟩
  unfold Builder.startTag at hb
  dsimp only at hb
  split at hb
  · exact hcleared.opened (.array (List.forall_mem_nil _)) hb
  · exact hcleared.opened Value.over_dict_nil hb
  · obtain rfl := Except.ok.inj hb
    exact hcleared

/-- The dates of XML fall on whole seconds, so they come back from a binary list. -/
theorem reread?_of_chars {s : List Char} {t : Scalar}
    (h : (DateTime.ofChars? s).map Scalar.date = some t) : t.reread? = some t := by
  obtain ⟨d, hd, rfl⟩ := Option.map_eq_some_iff.mp h
  obtain ⟨hvalid, hmicro⟩ := DateTime.isValid_of_ofChars? hd
  apply Scalar.reread?_of_dates
  rintro d' ⟨⟩
  exact DateTime.ofSeconds?_secondsSinceEpoch hvalid hmicro

theorem Sound.endTag (h : b.Sound) {e : Option Element} (hb : b.endTag e = .ok b') : b'.Sound := by
  have hmap {α : Type} {f : α → Scalar} (hf : ∀ a, (f a).reread? = some (f a)) {x : Option α}
      {t : Scalar} (ht : x.map f = some t) : t.reread? = some t := by
    obtain ⟨a, -, rfl⟩ := Option.map_eq_some_iff.mp ht
    exact hf a
  unfold Builder.endTag at hb
  split at hb
  · obtain rfl := Except.ok.inj hb
    exact h
  · exact h.closed hb
  · split at hb
    · cases hb
    · exact h.closed hb
  · exact h.setKey hb
  · exact h.add (.scalar rfl) hb
  · exact h.add (.scalar rfl) hb
  · exact h.addScalar (by rintro t ⟨⟩; rfl) hb
  · exact h.addScalar (fun t => hmap fun _ => rfl) hb
  · exact h.addScalar (fun t => hmap fun _ => rfl) hb
  · exact h.addScalar (fun t => hmap fun _ => rfl) hb
  · exact h.addScalar (fun t => reread?_of_chars) hb

theorem Sound.step {src : Source} {e : Event} (h : b.Sound) (hb : b.step src e = .ok b') :
    b'.Sound := by
  rw [Builder.step] at hb
  split at hb
  · next next hnext =>
    obtain rfl := Except.ok.inj hb
    unfold Builder.take at hnext
    split at hnext
    · exact h.startTag hnext
    · exact h.endTag hnext
    · obtain rfl := Except.ok.inj hnext
      exact ⟨h.stack, h.root⟩
  · cases hb

end Builder

/-- What XML is read as comes back from a binary list as it is. -/
theorem isRereadable_of_read {bytes : List UInt8} {v : Value} (h : read bytes = .ok v) :
    v.IsRereadable := by
  rw [read] at h
  split at h
  case h_1 src _ =>
    rw [readDocument] at h
    obtain ⟨b, hb, h⟩ := exists_of_bind_eq_ok h
    have hsound := inv_of_foldlM (fun _ _ _ hs => hs.step) Builder.sound_start hb
    split at h
    · cases h
    · next hroot =>
      obtain rfl := Except.ok.inj h
      exact hsound.root _ hroot
    · cases h
  all_goals cases h

end Xml

/-! ## JSON -/

/-- What JSON is read as comes back from a binary list as it is. -/
theorem Json.isRereadable_of_read {bytes : List UInt8} {v : Value} (h : read bytes = .ok v) :
    v.IsRereadable := by
  obtain ⟨text, -, hrun⟩ := exists_run_of_read h
  refine isMadeOf_of_run (fun l _ => ?_) hrun
  -- JSON has no dates, and all other scalars come back
  rcases l with ⟨t | _ | _ | _ | _, start⟩
  · cases t <;> trivial
  all_goals trivial

/-! ## Documents -/

/-- A document whose keys are told apart, and whose scalars come back from a binary list as they
    are. -/
structure Graph.IsRereadable (g : Graph) : Prop where
  wellKeyed : g.WellKeyed
  reread : ∀ i s, g.Reaches i → g.node i = .scalar s → s.reread? = some s

theorem Graph.isRereadable_ofValue {v : Value} (hv : v.IsRereadable) :
    (ofValue v).IsRereadable := by
  have hholds := holds_ofValue hv
  have hall : ∀ s, v.Mentions s → s.reread? = some s := by
    refine hv.mentions (fun s hs => hs) fun keys hkeys k hk => ?_
    obtain ⟨t, rfl, -⟩ := hkeys.text k hk
    rfl
  exact ⟨hholds.wellKeyed hv.isTextKeyed, fun i s hi hs => hall s (hholds.mentions hi hs)⟩

theorem Binary.isRereadable_of_read {bytes : List UInt8} {g : Graph} (h : read bytes = .ok g) :
    g.IsRereadable := by
  refine ⟨(wellFormed_of_read h).1.wellKeyed, fun i s _ hs => Scalar.reread?_of_dates ?_⟩
  rintro t rfl
  obtain ⟨x, hx⟩ := exists_seconds_of_read h hs
  exact DateTime.ofSeconds?_of_ofSeconds? hx

/-- Whatever a document was read from, it comes back from a binary list. -/
theorem Encoding.isRereadable_of_read {e : Encoding} {bytes : List UInt8} {source : Selector}
    {g : Graph} (h : e.read bytes = .ok ⟨source, some g⟩) : g.IsRereadable := by
  cases e with
  | binary => exact Binary.isRereadable_of_read (read_of_binary_read h)
  | xml =>
    rw [read] at h
    split at h
    · next v hv =>
      obtain ⟨-, hg⟩ := Document.mk.inj (Except.ok.inj h)
      obtain rfl := Option.some.inj hg
      exact Graph.isRereadable_ofValue (Xml.isRereadable_of_read hv)
    · cases h
  | json =>
    rw [read] at h
    split at h
    · next v hv =>
      obtain ⟨-, hg⟩ := Document.mk.inj (Except.ok.inj h)
      obtain rfl := Option.some.inj hg
      exact Graph.isRereadable_ofValue (Json.isRereadable_of_read hv)
    · cases h

theorem isRereadable_of_readRecognized {bytes : List UInt8} {source : Selector} {g : Graph}
    (h : readRecognized bytes = .ok ⟨source, some g⟩) : g.IsRereadable := by
  rw [readRecognized] at h
  split at h
  · exact Encoding.isRereadable_of_read h
  · cases h

end PropertyList
