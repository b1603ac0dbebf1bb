/-
  PropertyList.Proofs.Xml.Reals

  Reals in XML.  A real is written as a decimal and read back as itself, and as no
  number if it was none.  So the tree that is read is, with the same reals at every
  position, the one that `Value.normal` says.
-/
import PropertyList.Proofs.Number.RealText
import PropertyList.Proofs.Value.Scalars
import PropertyList.Proofs.Xml.RoundTrip

namespace PropertyList

/-! ## Entries whose keys have become equal -/

namespace Value

theorem setEntry_map (m : Value → Value) (entries : List (Scalar × Value)) (key : Scalar)
    (v : Value) : setEntry (entries.map fun e => (e.1, m e.2)) key (m v) =
      (setEntry entries key v).map fun e => (e.1, m e.2) := by
  induction entries with
  | nil => rfl
  | cons e es ih =>
    rw [List.map_cons, setEntry, setEntry]
    split
    · rfl
    · rw [ih, List.map_cons]

theorem moves_mergeEntries : Moves mergeEntries := by
  intro m es
  have hfold (done : List (Scalar × Value)) :
      (es.map fun e => (e.1, m e.2)).foldl (fun es e => setEntry es e.1.normal e.2)
          (done.map fun e => (e.1, m e.2)) =
        (es.foldl (fun es e => setEntry es e.1.normal e.2) done).map fun e => (e.1, m e.2) := by
    induction es generalizing done with
    | nil => rfl
    | cons e es ih => rw [List.map_cons, List.foldl_cons, List.foldl_cons, setEntry_map, ih]
  exact hfold []

end Value

/-! ## Reals -/

/-- What reading finds of a scalar in which a real was written as text. -/
def Scalar.inText : Scalar → Scalar
  | real x => .real x.inText
  | s => s

/-- Nothing that counts is lost of a real. -/
theorem Scalar.same_of_inText {s t : Scalar} (h : s.Same t.inText) : s.Same t := by
  cases t with
  | real y =>
    rw [inText, Binary64.inText] at h
    split at h
    next hy =>
      -- only what is no number is the same as one that is none
      cases s with
      | real x =>
        refine .inr ⟨?_, hy⟩
        rcases h with h | h
        · have hnan : (Binary64.nan false).isNaN = true := rfl
          rw [Binary64.compare?, hnan, Bool.or_true, if_pos rfl] at h
          cases h
        · exact h.1
      | _ => cases h
    next => exact h
  | _ => exact h

namespace Xml

/-- The scalars that XML keeps as `Scalar.normal` says, but for what a real can lose. -/
def IsKept (s : Scalar) : Prop := IsExpressible s ∨ ∃ x, s = .real x

theorem isPlain_of_isRealChar {c : Char} (h : Binary64.IsRealChar c) : IsPlain c ∧ IsContent c :=
  h.elim (P := fun c => IsPlain c ∧ IsContent c) isPlain_of_isDigit (forall_of_all (by decide))

/-- The line of a real is taken as that real. -/
theorem reads_real (level : Nat) (x : Binary64) :
    ∃ ls, scalarLines level (.real x) = .ok ls ∧ Reads ls (.scalar (.real x.inText)) := by
  obtain ⟨hescape, hplain⟩ := flatMap_escapeChar_of fun c (hc : c ∈ x.text) =>
    isPlain_of_isRealChar (Binary64.isRealChar_of_mem_text hc)
  refine ⟨_, rfl, ?_⟩
  rw [← hescape]
  refine reads_textLine (e := .real) hplain (fun _ => rfl) fun b chars haccepts htext => ?_
  have hread : Binary64.ofText? (Text.ofChars chars.reverse.flatten) = some x.inText := by
    rw [htext]
    exact Binary64.ofText?_text x
  show Builder.addScalar _ ((Binary64.ofText? (Text.ofChars chars.reverse.flatten)).map _) = _
  rw [hread]
  exact Builder.addScalar_chars haccepts chars

theorem survives_kept : Survives IsKept (Scalar.inText ∘ Scalar.normal) := by
  rintro s (hs | ⟨x, rfl⟩) level
  · have hsame : s.normal.inText = s.normal := by
      cases s with
      | real x => exact hs.elim
      | _ => rfl
    rw [Function.comp_apply, hsame]
    exact survives_normal s hs level
  · exact reads_real level x

/-- What is read of the XML of a tree of such scalars is what is left of the tree, but for what its
    reals can lose. -/
theorem exists_write_kept {v : Value} (hv : v.Over IsKept (TextKeys Text.IsLegal))
    (hdepth : v.depth ≤ writeDepth) (sortKeys : Bool) :
    ∃ bytes, write sortKeys v = .ok bytes ∧
      read bytes = .ok ((v.arranged sortKeys).normal.mapScalars Scalar.inText) := by
  obtain ⟨bytes, hwrite, hread⟩ := exists_write survives_kept hv hdepth sortKeys
  refine ⟨bytes, hwrite, ?_⟩
  rw [hread, Value.normal, Value.mapScalars_transform Value.moves_mergeEntries]

end Xml

end PropertyList
