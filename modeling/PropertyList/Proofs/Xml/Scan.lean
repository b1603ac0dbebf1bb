/-
  PropertyList.Proofs.Xml.Scan

  Scanning and building side by side.  `Leads` says that a piece of a document
  is scanned to its end and takes the builder from one state to another, so that
  what is said about the pieces of a document composes to what is said about all
  of it.
-/
import PropertyList.Xml.Reader
import PropertyList.Xml.Writer
import PropertyList.Proofs.Xml.Source

namespace PropertyList.Xml

/-! ## Names and tags -/

/-- A name of characters with which a name can start. -/
def IsName (n : List Char) : Prop := n ≠ [] ∧ n.all Alphabet.standard.starts = true

instance (n : List Char) : Decidable (IsName n) := by unfold IsName; infer_instance

section Tags

variable {name rest : List Char} {complete : Bool} {fuel : Nat}

theorem IsName.exists_cons (h : IsName name) :
    ∃ c n, name = c :: n ∧ Alphabet.standard.starts c = true := by
  obtain ⟨c, n, rfl⟩ := List.exists_cons_of_ne_nil h.1
  exact ⟨c, n, rfl, List.all_eq_true.mp h.2 c List.mem_cons_self⟩

theorem takeName?_append (h : IsName name)
    (hrest : ∀ c ∈ rest.head?, Alphabet.standard.continues c = false) :
    takeName? .standard (name ++ rest) = some (name, rest) := by
  obtain ⟨c, n, rfl, hc⟩ := h.exists_cons
  have hspan : (n ++ rest).span Alphabet.standard.continues = (n, rest) :=
    span_append (fun a ha => Alphabet.continues_of_starts
      (List.all_eq_true.mp h.2 a (List.mem_cons_of_mem _ ha))) hrest
  rw [List.cons_append, takeName?, if_pos hc, hspan]

/-- Neither `>` nor `/` is part of a name. -/
theorem continues_tagEnd {c : Char} (h : c = '>' ∨ c = '/') :
    Alphabet.standard.continues c = false := by
  rcases h with rfl | rfl <;> decide

theorem takeStartTag?_element (h : IsName name) :
    takeStartTag? .standard complete (fuel + 1) (name ++ '>' :: rest) =
      some (name, .element, rest) := by
  have hname : takeName? .standard (name ++ '>' :: rest) = some (name, '>' :: rest) :=
    takeName?_append h fun c hc => continues_tagEnd (.inl (Option.some.inj hc).symm)
  rw [takeStartTag?, hname]
  rfl

theorem takeStartTag?_empty (h : IsName name) :
    takeStartTag? .standard complete (fuel + 1) (name ++ '/' :: '>' :: rest) =
      some (name, .emptyElement, rest) := by
  have hname : takeName? .standard (name ++ '/' :: '>' :: rest) = some (name, '/' :: '>' :: rest) :=
    takeName?_append h fun c hc => continues_tagEnd (.inr (Option.some.inj hc).symm)
  rw [takeStartTag?, hname]
  rfl

theorem takeEndTag?_append (h : IsName name) :
    takeEndTag? .standard (name ++ '>' :: rest) = some (name, rest) := by
  have hname : takeName? .standard (name ++ '>' :: rest) = some (name, '>' :: rest) :=
    takeName?_append h fun c hc => continues_tagEnd (.inl (Option.some.inj hc).symm)
  rw [takeEndTag?, hname]
  rfl

end Tags

/-! ## Steps of the scanner -/

/-- A character of text that is not escaped. -/
def IsContent (c : Char) : Prop := c ≠ '<' ∧ c ≠ '&' ∧ c ≠ '>'

instance (c : Char) : Decidable (IsContent c) := by unfold IsContent; infer_instance

/-- Text ends in front of a tag or a reference. -/
theorem takeCharacters?_append {cs : List Char} (h : ∀ c ∈ cs, IsContent c) {m : Char}
    (hm : m = '<' ∨ m = '&') (taken rest : List Char) :
    takeCharacters? taken (cs ++ m :: rest) = some (taken.reverse ++ cs, m :: rest) := by
  induction cs generalizing taken with
  | nil =>
    rw [List.nil_append, takeCharacters?.eq_def]
    split
    · next e => rcases hm with rfl | rfl <;> simp at e
    · next c s _ e =>
      obtain ⟨rfl, rfl⟩ := List.cons.inj e
      rw [if_pos hm, List.append_nil]
    · next e => cases e
  | cons c cs ih =>
    have hc := h c List.mem_cons_self
    have hcs := fun a ha => h a (List.mem_cons_of_mem _ ha)
    rw [List.cons_append, takeCharacters?.eq_def]
    split
    · next s e =>
      -- the end mark of a section has a character that is always escaped
      exfalso
      obtain ⟨-, e⟩ := List.cons.inj e
      cases cs with
      | nil =>
        obtain ⟨rfl, -⟩ := List.cons.inj e
        rcases hm with hm | hm <;> exact absurd hm (by decide)
      | cons a cs =>
        obtain ⟨-, e⟩ := List.cons.inj e
        cases cs with
        | nil =>
          obtain ⟨rfl, -⟩ := List.cons.inj e
          rcases hm with hm | hm <;> exact absurd hm (by decide)
        | cons b cs =>
          obtain ⟨rfl, -⟩ := List.cons.inj e
          exact (hcs _ (List.mem_cons_of_mem _ List.mem_cons_self)).2.2 rfl
    · next c' s _ e =>
      obtain ⟨rfl, rfl⟩ := List.cons.inj e
      rw [if_neg (by rintro (e | e); exacts [hc.1 e, hc.2.1 e]), ih hcs, List.reverse_cons,
        List.append_assoc]
      rfl
    · next e => cases e

theorem escapeChar_of_isContent {c : Char} (h : IsContent c) : escapeChar c = [c] := by
  rw [escapeChar, if_neg h.2.1, if_neg h.1, if_neg h.2.2]

/-- An escaped character starts a reference. -/
theorem exists_escapeChar {c : Char} (h : ¬ IsContent c) : ∃ s, escapeChar c = '&' :: s := by
  unfold escapeChar
  split_ifs with hamp hless hgreater
  · exact ⟨_, rfl⟩
  · exact ⟨_, rfl⟩
  · exact ⟨_, rfl⟩
  · exact absurd ⟨hless, hamp, hgreater⟩ h

section Steps

variable {names : List (List Char)} {events : List Event} {name rest : List Char} {fuel : Nat}

theorem scanContent_characters {cs : List Char} (hne : cs ≠ []) (h : ∀ c ∈ cs, IsContent c)
    {m : Char} (hm : m = '<' ∨ m = '&') :
    scanContent .standard false (fuel + 1) names events (cs ++ m :: rest) =
      scanContent .standard false fuel names (⟨.text cs, cs ++ m :: rest⟩ :: events)
        (m :: rest) := by
  obtain ⟨c, s, rfl⟩ := List.exists_cons_of_ne_nil hne
  have hc := h c List.mem_cons_self
  have htake := takeCharacters?_append h hm [] rest
  rw [List.reverse_nil, List.nil_append] at htake
  rw [scanContent.eq_def]
  simp only
  -- the first character is content, so no mark is at the front
  split
  · next e => cases e
  · next e => exact absurd (List.cons.inj e).1 hc.1
  · next e => exact absurd (List.cons.inj e).1 hc.1
  · next e => exact absurd (List.cons.inj e).1 hc.1
  · next e => exact absurd (List.cons.inj e).1 hc.1
  · next e => exact absurd (List.cons.inj e).1 hc.2.1
  · rw [htake]

/-- What starts a name is none of the marks behind `<`. -/
theorem ne_mark_of_starts {c : Char} (h : Alphabet.standard.starts c = true) :
    c ≠ '/' ∧ c ≠ '!' ∧ c ≠ '?' := by
  refine ⟨?_, ?_, ?_⟩ <;> rintro rfl <;> revert h <;> decide

/-- A start tag is scanned as it is taken. -/
theorem scanContent_tag {t : List Char} {c : Char} (hc : Alphabet.standard.starts c = true) :
    scanContent .standard false (fuel + 1) names events ('<' :: c :: t) =
      match takeStartTag? .standard false (fuel + 1) (c :: t) with
      | some (name, .element, rest) =>
        scanContent .standard false fuel (name :: names)
          (⟨.startTag name, '<' :: c :: t⟩ :: events) rest
      | some (name, .emptyElement, rest) =>
        let events := ⟨.endTag name, rest⟩ :: ⟨.startTag name, '<' :: c :: t⟩ :: events
        if names.isEmpty then (events, some rest)
        else scanContent .standard false fuel names events rest
      | none => (events, none) := by
  obtain ⟨hslash, hbang, hquestion⟩ := ne_mark_of_starts hc
  rw [scanContent.eq_def]
  simp only
  -- a name does not start with one of the marks of other tags
  split
  · next e => cases e
  · next e => exact absurd (List.cons.inj (List.cons.inj e).2).1 hslash
  · next e => exact absurd (List.cons.inj (List.cons.inj e).2).1 hbang
  · next e => exact absurd (List.cons.inj (List.cons.inj e).2).1 hquestion
  · next e => obtain ⟨-, rfl⟩ := List.cons.inj e; rfl
  · next e => exact absurd (List.cons.inj e).1 (by decide)
  · next h _ => exact absurd rfl (h _)

/-- The end tag of the innermost element, which ends the document if there is no other one. -/
theorem scanContent_end {outer : List (List Char)} (hname : IsName name) :
    scanContent .standard false (fuel + 1) (name :: outer) events
      ('<' :: '/' :: (name ++ '>' :: rest)) =
      if outer.isEmpty then
        (⟨.endTag name, '<' :: '/' :: (name ++ '>' :: rest)⟩ :: events, some rest)
      else scanContent .standard false fuel outer
        (⟨.endTag name, '<' :: '/' :: (name ++ '>' :: rest)⟩ :: events) rest := by
  rw [scanContent.eq_def]
  simp only [takeEndTag?_append hname, if_true]

end Steps

/-! ## Scanning and building -/

/-- Where reading stands: the names of the open elements, the builder, and what is left. -/
structure Stage where
  names : List (List Char)
  builder : Builder
  rest : List Char

/-- Scanning goes from one stage to another, and the builder takes the events in between.  No more
    events are scanned than there are characters, so the fuel of the scanner suffices. -/
def Leads (a b : Stage) : Prop :=
  ∃ (n : Nat) (evs : List Event), n + b.rest.length ≤ a.rest.length ∧
    (∀ fuel events, scanContent .standard false (fuel + n) a.names events a.rest =
      scanContent .standard false fuel b.names (evs.reverse ++ events) b.rest) ∧
    ∀ src, evs.foldlM (fun b e => Builder.step src b e) a.builder = .ok b.builder

namespace Leads

variable {a b c : Stage} {names : List (List Char)} {x y : Builder} {name rest : List Char}

theorem refl (a : Stage) : Leads a a :=
  ⟨0, [], Nat.le_of_eq (Nat.zero_add _), fun _ _ => rfl, fun _ => rfl⟩

theorem trans (hab : Leads a b) (hbc : Leads b c) : Leads a c := by
  obtain ⟨n, evs, hn, hscan, hbuild⟩ := hab
  obtain ⟨m, fvs, hm, hscan', hbuild'⟩ := hbc
  refine ⟨m + n, evs ++ fvs, by omega, fun fuel events => ?_, fun src => ?_⟩
  · rw [← Nat.add_assoc, hscan, hscan', List.reverse_append, List.append_assoc]
  · rw [List.foldlM_append, hbuild src]
    exact hbuild' src

/-- The builder takes an event of a kind that fits. -/
theorem step_of_take {k : EventKind} {place : List Char} (h : x.take k = .ok y) (src : Source) :
    x.step src ⟨k, place⟩ = .ok y := by
  rw [Builder.step, h]

theorem foldlM_single {k : EventKind} {place : List Char} (h : x.take k = .ok y) (src : Source) :
    [(⟨k, place⟩ : Event)].foldlM (fun b e => Builder.step src b e) x = .ok y := by
  rw [List.foldlM_cons, step_of_take h]
  rfl

/-- A start tag. -/
theorem start (hname : IsName name) (htake : x.startTag (Element.named? name) = .ok y) :
    Leads ⟨names, x, '<' :: (name ++ '>' :: rest)⟩ ⟨name :: names, y, rest⟩ := by
  refine ⟨1, [⟨.startTag name, '<' :: (name ++ '>' :: rest)⟩], ?_, fun fuel events => ?_,
    foldlM_single htake⟩
  · simp only [List.length_cons, List.length_append]
    omega
  · obtain ⟨c, n, rfl, hc⟩ := hname.exists_cons
    have htag : takeStartTag? .standard false (fuel + 1) (c :: (n ++ '>' :: rest)) =
        some (c :: n, .element, rest) := takeStartTag?_element hname
    rw [List.cons_append, scanContent_tag hc, htag]
    rfl

/-- The tag of an empty element inside of another one. -/
theorem empty {z : Builder} (hnames : names ≠ []) (hname : IsName name)
    (hstart : x.startTag (Element.named? name) = .ok y)
    (hend : y.endTag (Element.named? name) = .ok z) :
    Leads ⟨names, x, '<' :: (name ++ '/' :: '>' :: rest)⟩ ⟨names, z, rest⟩ := by
  refine ⟨1, [⟨.startTag name, '<' :: (name ++ '/' :: '>' :: rest)⟩, ⟨.endTag name, rest⟩], ?_,
    fun fuel events => ?_, fun src => ?_⟩
  · simp only [List.length_cons, List.length_append]
    omega
  · obtain ⟨c, n, rfl, hc⟩ := hname.exists_cons
    have htag : takeStartTag? .standard false (fuel + 1) (c :: (n ++ '/' :: '>' :: rest)) =
        some (c :: n, .emptyElement, rest) := takeStartTag?_empty hname
    have hne : names.isEmpty = false := List.isEmpty_eq_false_iff.mpr hnames
    rw [List.cons_append, scanContent_tag hc, htag]
    simp only [hne]
    rfl
  · rw [List.foldlM_cons, step_of_take (k := .startTag name) hstart]
    exact foldlM_single (k := .endTag name) hend src

/-- The end tag of an element inside of another one. -/
theorem finish (hnames : names ≠ []) (hname : IsName name)
    (htake : x.endTag (Element.named? name) = .ok y) :
    Leads ⟨name :: names, x, '<' :: '/' :: (name ++ '>' :: rest)⟩ ⟨names, y, rest⟩ := by
  refine ⟨1, [⟨.endTag name, '<' :: '/' :: (name ++ '>' :: rest)⟩], ?_, fun fuel events => ?_,
    foldlM_single htake⟩
  · simp only [List.length_cons, List.length_append]
    omega
  · have hne : names.isEmpty = false := List.isEmpty_eq_false_iff.mpr hnames
    rw [scanContent_end hname, hne]
    rfl

/-- A run of characters in front of a tag or a reference. -/
theorem characters {cs : List Char} (hne : cs ≠ []) (h : ∀ c ∈ cs, IsContent c) {m : Char}
    (hm : m = '<' ∨ m = '&') :
    Leads ⟨names, x, cs ++ m :: rest⟩ ⟨names, { x with chars := cs :: x.chars }, m :: rest⟩ := by
  refine ⟨1, [⟨.text cs, cs ++ m :: rest⟩], ?_, fun fuel events => ?_, foldlM_single rfl⟩
  · have := List.length_pos_iff.mpr hne
    simp only [List.length_append]
    omega
  · exact scanContent_characters hne h hm

/-- An escaped character. -/
theorem reference {c : Char} (hc : ¬ IsContent c) :
    Leads ⟨names, x, escapeChar c ++ rest⟩ ⟨names, { x with chars := [c] :: x.chars }, rest⟩ := by
  refine ⟨1, [⟨.text [c], escapeChar c ++ rest⟩], ?_, fun fuel events => ?_, foldlM_single rfl⟩
  · obtain ⟨s, hs⟩ := exists_escapeChar hc
    simp only [hs, List.length_append, List.length_cons]
    omega
  · have hcases : c = '<' ∨ c = '&' ∨ c = '>' := by
      unfold IsContent at hc
      tauto
    rcases hcases with rfl | rfl | rfl <;> rfl

end Leads

/-! ## Text -/

theorem flatten_chars_cons (b : Builder) (cs : List Char) :
    (cs :: b.chars).reverse.flatten = b.text ++ cs := by
  rw [List.reverse_cons, List.flatten_append, List.flatten_singleton]
  rfl

/-- The characters in front of the first one that is escaped. -/
theorem exists_run (cs : List Char) : ∃ run tail, cs = run ++ tail ∧ (∀ c ∈ run, IsContent c) ∧
    ∀ c ∈ tail.head?, ¬ IsContent c := by
  induction cs with
  | nil => exact ⟨[], [], rfl, by simp, by simp⟩
  | cons c cs ih =>
    by_cases hc : IsContent c
    · obtain ⟨run, tail, rfl, hrun, htail⟩ := ih
      refine ⟨c :: run, tail, rfl, fun a ha => ?_, htail⟩
      rcases List.mem_cons.mp ha with rfl | ha
      · exact hc
      · exact hrun a ha
    · exact ⟨[], c :: cs, rfl, by simp, fun a ha => Option.some.inj ha ▸ hc⟩

theorem flatMap_escapeChar {run : List Char} (h : ∀ c ∈ run, IsContent c) :
    run.flatMap escapeChar = run := by
  induction run with
  | nil => rfl
  | cons c run ih =>
    rw [List.flatMap_cons, escapeChar_of_isContent (h c List.mem_cons_self),
      ih fun a ha => h a (List.mem_cons_of_mem _ ha)]
    rfl

/-- A run of characters, which may be empty, in front of a tag or a reference. -/
theorem Leads.run (names : List (List Char)) (b : Builder) {run : List Char}
    (h : ∀ c ∈ run, IsContent c) {m : Char} (hm : m = '<' ∨ m = '&') (rest : List Char) :
    ∃ chars, Leads ⟨names, b, run ++ m :: rest⟩ ⟨names, { b with chars := chars }, m :: rest⟩ ∧
      chars.reverse.flatten = b.text ++ run := by
  cases run with
  | nil => exact ⟨b.chars, .refl _, (List.append_nil _).symm⟩
  | cons c run =>
    exact ⟨_, .characters (List.cons_ne_nil c run) h hm, flatten_chars_cons b _⟩

/-- Escaped text in front of a tag is taken as what it was escaped from. -/
theorem Leads.escaped (names : List (List Char)) (b : Builder) (cs rest : List Char) :
    ∃ chars, Leads ⟨names, b, cs.flatMap escapeChar ++ '<' :: rest⟩
      ⟨names, { b with chars := chars }, '<' :: rest⟩ ∧ chars.reverse.flatten = b.text ++ cs := by
  induction hn : cs.length using Nat.strongRecOn generalizing b cs with
  | _ n ih =>
    obtain ⟨run, tail, rfl, hrun, htail⟩ := exists_run cs
    rw [List.flatMap_append, flatMap_escapeChar hrun, List.append_assoc]
    cases tail with
    | nil =>
      rw [List.append_nil]
      exact Leads.run names b hrun (.inl rfl) rest
    | cons c tail =>
      -- the run ends at a reference, behind which there is less text left
      have hc := htail c rfl
      obtain ⟨s, hs⟩ := exists_escapeChar hc
      have hfront : (c :: tail).flatMap escapeChar ++ '<' :: rest =
          escapeChar c ++ (tail.flatMap escapeChar ++ '<' :: rest) := List.append_assoc _ _ _
      obtain ⟨chars, hlead, htext⟩ := Leads.run names b hrun (.inr rfl)
        (s ++ (tail.flatMap escapeChar ++ '<' :: rest))
      rw [← List.cons_append, ← hs, ← hfront] at hlead
      have hreference : Leads ⟨names, { b with chars := chars }, (c :: tail).flatMap escapeChar ++
          '<' :: rest⟩ ⟨names, { b with chars := [c] :: chars }, tail.flatMap escapeChar ++
          '<' :: rest⟩ := hfront ▸ .reference hc
      obtain ⟨chars', hlead', htext'⟩ := ih tail.length (by simp at hn; omega)
        { b with chars := [c] :: chars } tail rfl
      refine ⟨chars', hlead.trans (hreference.trans hlead'), ?_⟩
      rw [htext']
      show ([c] :: chars).reverse.flatten ++ tail = _
      rw [flatten_chars_cons { b with chars := chars } [c]]
      show chars.reverse.flatten ++ [c] ++ tail = _
      rw [htext, List.append_assoc, List.append_assoc]
      rfl

end PropertyList.Xml
