/-
  PropertyList.Proofs.Xml.Normal

  Which trees XML can express, and what is left of them.  `Value.normal` is the
  tree that the XML of a tree stands for: every line break is one line feed, a
  date falls on a whole second, and keys that have become equal are one.
-/
import PropertyList.Xml.Writer
import PropertyList.Xml.Source
import PropertyList.Proofs.DateTime
import PropertyList.Proofs.Value
import PropertyList.Proofs.Xml.Source

namespace PropertyList

/-! ## Text -/

namespace Text

/-- A text of characters that may occur in a document. -/
def IsLegal (t : Text) : Prop := ∃ cs : List Char, t = ofChars cs ∧ ∀ c ∈ cs, Xml.isLegal c = true

/-- The text with each line break as one line feed. -/
def unifyBreaks : Text → Text
  | .scalar '\r' :: .scalar '\n' :: s => .scalar '\n' :: unifyBreaks s
  | .scalar '\r' :: s => .scalar '\n' :: unifyBreaks s
  | c :: s => c :: unifyBreaks s
  | [] => []

/-- Text without carriage returns stays as it is. -/
theorem unifyBreaks_of_not_mem {t : Text} (h : .scalar '\r' ∉ t) : t.unifyBreaks = t := by
  induction t using unifyBreaks.induct with
  | case1 s ih => exact absurd List.mem_cons_self h
  | case2 s _ ih => exact absurd List.mem_cons_self h
  | case3 c s hfeed hreturn ih =>
    rw [unifyBreaks, ih fun hs => h (List.mem_cons_of_mem _ hs)]
    · exact hfeed
    · exact hreturn
  | case4 => rfl

end Text

namespace Xml

/-- The text behind a line feed at its front. -/
def dropFeed : List Char → List Char
  | '\n' :: s => s
  | s => s

theorem ofChars_unifyBreaks_cons {c : Char} (hc : c ≠ '\r') (s : List Char) :
    (Text.ofChars (c :: s)).unifyBreaks = .scalar c :: (Text.ofChars s).unifyBreaks := by
  have hne : CodePoint.scalar c ≠ .scalar '\r' := fun e => hc (CodePoint.scalar.inj e)
  rw [Text.ofChars_cons, Text.unifyBreaks]
  · exact fun _ e _ => hne e
  · exact hne

theorem ofChars_unifyBreaks_return (s : List Char) :
    (Text.ofChars ('\r' :: s)).unifyBreaks =
      .scalar '\n' :: (Text.ofChars (dropFeed s)).unifyBreaks := by
  cases s with
  | nil => rfl
  | cons c s =>
    by_cases hc : c = '\n'
    · rw [hc]
      rfl
    · have hdrop : dropFeed (c :: s) = c :: s := by
        unfold dropFeed
        split
        · next e => exact absurd (List.cons.inj e).1 hc
        · rfl
      rw [hdrop, Text.ofChars_cons, Text.unifyBreaks]
      exact fun _ e => hc (CodePoint.scalar.inj (List.cons.inj e).1)

/-- One pass over the characters unifies the line breaks of a text. -/
theorem ofChars_unifyBreaks (afterReturn : Bool) (taken cs : List Char) :
    Text.ofChars (unifyBreaks afterReturn taken cs) = Text.ofChars taken.reverse ++
      (Text.ofChars (if afterReturn then dropFeed cs else cs)).unifyBreaks := by
  induction cs generalizing afterReturn taken with
  | nil =>
    have hnil : (if afterReturn then dropFeed [] else []) = [] := by cases afterReturn <;> rfl
    rw [hnil, unifyBreaks]
    exact (List.append_nil _).symm
  | cons c cs ih =>
    have htaken (d : Char) (t : Text) : Text.ofChars (d :: taken).reverse ++ t =
        Text.ofChars taken.reverse ++ .scalar d :: t := by
      rw [List.reverse_cons, Text.ofChars_append, List.append_assoc]
      rfl
    -- a carriage return becomes a line feed
    by_cases hreturn : c = '\r'
    · have hdrop : (if afterReturn then dropFeed (c :: cs) else c :: cs) = '\r' :: cs := by
        rw [hreturn]
        cases afterReturn <;> rfl
      rw [hdrop, ofChars_unifyBreaks_return, unifyBreaks, if_pos hreturn, ih, htaken, if_pos rfl]
    · rw [unifyBreaks, if_neg hreturn]
      -- the line feed behind it has been taken with it
      by_cases hfeed : c = '\n' ∧ afterReturn = true
      · obtain ⟨rfl, rfl⟩ := hfeed
        exact ih false taken
      · have hkeep : (decide (c = '\n') && afterReturn) = false := by
          rw [Bool.and_eq_false_iff]
          by_cases hc : c = '\n'
          · exact .inr (Bool.eq_false_iff.mpr fun h => hfeed ⟨hc, h⟩)
          · exact .inl (decide_eq_false hc)
        have hdrop : (if afterReturn then dropFeed (c :: cs) else c :: cs) = c :: cs := by
          cases afterReturn with
          | false => rfl
          | true =>
            have hc : c ≠ '\n' := fun e => hfeed ⟨e, rfl⟩
            rw [if_pos rfl, dropFeed]
            exact fun _ e => hc (List.cons.inj e).1
        rw [hdrop, hkeep, if_neg Bool.false_ne_true, ih, htaken, if_neg Bool.false_ne_true,
          ofChars_unifyBreaks_cons hreturn]

/-- Unifying line breaks leaves legal characters without carriage returns. -/
theorem isPlain_unifyBreaks (afterReturn : Bool) {taken cs : List Char}
    (htaken : ∀ c ∈ taken, IsPlain c) (h : ∀ c ∈ cs, isLegal c = true) :
    ∀ c ∈ unifyBreaks afterReturn taken cs, IsPlain c := by
  induction cs generalizing afterReturn taken with
  | nil => exact fun c hc => htaken c (List.mem_reverse.mp hc)
  | cons c cs ih =>
    have hcs := fun a ha => h a (List.mem_cons_of_mem _ ha)
    have hcons (d : Char) (hd : IsPlain d) : ∀ a ∈ d :: taken, IsPlain a := by
      intro a ha
      rcases List.mem_cons.mp ha with rfl | ha
      · exact hd
      · exact htaken a ha
    rw [unifyBreaks]
    split_ifs with hreturn hfeed
    · exact ih true (hcons '\n' (by decide)) hcs
    · exact ih false htaken hcs
    · exact ih false (hcons c ⟨h c List.mem_cons_self, hreturn⟩) hcs

/-- Legal characters are no control characters. -/
theorem isControl_of_isLegal {c : Char} (h : isLegal c = true) :
    isControl (.scalar c) = false := by
  refine Bool.eq_false_iff.mpr fun hcontrol => ?_
  simp only [isLegal, Bool.or_eq_true, Bool.and_eq_true, decide_eq_true_eq] at h
  simp only [isControl, Bool.and_eq_true, decide_eq_true_eq] at hcontrol
  have hnat : (CodePoint.scalar c).toNat = c.toNat := rfl
  omega

end Xml

/-! ## Trees -/

/-- What is left of a scalar: unified line breaks, and no microseconds. -/
def Scalar.normal : Scalar → Scalar
  | text t => .text t.unifyBreaks
  | date t => .date t.wholeSecond
  | s => s

namespace Value

/-- Entries set one after the other into an empty dictionary, with what is left of their keys: a
    key that comes again keeps its place and gets the later value. -/
def mergeEntries (entries : List (Scalar × Value)) : List (Scalar × Value) :=
  entries.foldl (fun es e => setEntry es e.1.normal e.2) []

/-- The tree that the XML of a tree stands for. -/
def normal (v : Value) : Value := transform Scalar.normal mergeEntries v

/-- Entries with distinct keys of which nothing is lost stay as they are. -/
theorem mergeEntries_eq_self {entries : List (Scalar × Value)}
    (h : TextKeys (fun t => t.unifyBreaks = t) (entries.map (·.1))) :
    mergeEntries entries = entries := by
  have hnormal : ∀ e ∈ entries, e.1.normal = e.1 := by
    intro e he
    obtain ⟨t, ht, hunify⟩ := h.text e.1 (List.mem_map_of_mem he)
    rw [ht, Scalar.normal, hunify]
  have hset : mergeEntries entries = entries.foldl (fun es e => setEntry es e.1 e.2) [] :=
    List.foldl_ext _ _ _ fun es e he => by rw [hnormal e he]
  exact hset.trans (@foldl_setEntry_of_textKeys _ entries [] h)

/-- A tree of which nothing is lost stays as it is. -/
theorem normal_eq_self {v : Value}
    (h : v.Over (fun s => s.normal = s) (TextKeys fun t => t.unifyBreaks = t)) : v.normal = v := by
  rw [normal]
  induction h with
  | scalar hs => rw [transform_scalar, hs]
  | @array items _ ih =>
    have hitems : items.map (transform Scalar.normal mergeEntries) = items :=
      (List.map_congr_left ih).trans (List.map_id' items)
    rw [transform_array, hitems]
  | @dict entries hkeys _ ih =>
    have hvalues : (entries.map fun e => (e.1, e.2.transform Scalar.normal mergeEntries)) =
        entries := by
      refine (List.map_congr_left fun e he => ?_).trans (List.map_id' entries)
      rw [ih e he]
    rw [transform_dict, hvalues, mergeEntries_eq_self hkeys]

/-- Setting entries keeps keys distinct, and takes no values but those of the entries. -/
theorem foldl_setEntry_spec {Q R : Text → Prop} (hQR : ∀ t, Q t → R t.unifyBreaks)
    {entries : List (Scalar × Value)} (h : TextKeys Q (entries.map (·.1)))
    (es done : List (Scalar × Value)) (hes : ∀ e ∈ es, e ∈ entries)
    (hdone : TextKeys R (done.map (·.1)) ∧ ∀ e ∈ done, ∃ e' ∈ entries, e.2 = e'.2) :
    TextKeys R ((es.foldl (fun es e => setEntry es e.1.normal e.2) done).map (·.1)) ∧
      ∀ e ∈ es.foldl (fun es e => setEntry es e.1.normal e.2) done,
        ∃ e' ∈ entries, e.2 = e'.2 := by
  induction es generalizing done with
  | nil => exact hdone
  | cons e es ih =>
    have he := hes e List.mem_cons_self
    obtain ⟨t, ht, hQ⟩ := h.text e.1 (List.mem_map_of_mem he)
    have hkey : e.1.normal = .text t.unifyBreaks := by rw [ht]; rfl
    rw [List.foldl_cons, hkey]
    refine ih _ (fun e he => hes e (List.mem_cons_of_mem _ he))
      ⟨textKeys_setEntry hdone.1 (hQR t hQ), fun f hf => ?_⟩
    rcases mem_setEntry hf with hf | ⟨f', hf', hff'⟩
    · exact ⟨e, he, hf⟩
    · rw [hff']
      exact hdone.2 f' hf'

/-- The keys of merged entries are distinct texts of the kind that unified texts have. -/
theorem mergeEntries_spec {Q R : Text → Prop} (hQR : ∀ t, Q t → R t.unifyBreaks)
    {entries : List (Scalar × Value)} (h : TextKeys Q (entries.map (·.1))) :
    TextKeys R ((mergeEntries entries).map (·.1)) ∧
      ∀ e ∈ mergeEntries entries, ∃ e' ∈ entries, e.2 = e'.2 :=
  foldl_setEntry_spec hQR h entries [] (fun _ he => he)
    ⟨⟨List.nodup_nil, List.forall_mem_nil _⟩, List.forall_mem_nil _⟩

end Value

/-- The scalars of which XML keeps all but line breaks and microseconds. -/
def Xml.IsExpressible : Scalar → Prop
  | .bool _ => True
  | .int n => -0x8000000000000000 ≤ n ∧ n < 0x10000000000000000
  | .text t => t.IsLegal
  | .data _ => True
  | .date t => t.IsValid
  | .null => False
  | .real _ => False
  | .uid _ => False

end PropertyList
