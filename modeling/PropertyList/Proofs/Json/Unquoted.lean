/-
  PropertyList.Proofs.Json.Unquoted

  What stands outside the strings of JSON output.  Inside of quotes no code point is
  written so that it closes them, and outside there are punctuation, small letters and
  numbers alone; so the words for what is no number cannot occur there.
-/
import PropertyList.Proofs.Json.RoundTrip

namespace PropertyList.Json

/-! ## Strings in a text -/

/-- A place in a text: outside of strings, inside of one, or behind a backslash in one. -/
inductive Part where
  | outside
  | inside
  | escape

/-- The code points outside of strings; what follows a backslash does not end a string. -/
def unquoted : Part → Text → Text
  | _, [] => []
  | .outside, c :: s => if c = .scalar '"' then unquoted .inside s else c :: unquoted .outside s
  | .inside, c :: s =>
    if c = .scalar '"' then unquoted .outside s
    else if c = .scalar '\\' then unquoted .escape s
    else unquoted .inside s
  | .escape, _ :: s => unquoted .inside s

theorem unquoted_of_ne {w : Text} (h : ∀ c ∈ w, c ≠ .scalar '"') (s : Text) :
    unquoted .outside (w ++ s) = w ++ unquoted .outside s := by
  induction w with
  | nil => rfl
  | cons c w ih =>
    obtain ⟨hc, hw⟩ := List.forall_mem_cons.mp h
    rw [List.cons_append, unquoted, if_neg hc, ih hw, List.cons_append]

/-- Code points that stand for themselves in a string do not end it. -/
theorem unquoted_inside {w : Text} (h : ∀ c ∈ w, c ≠ .scalar '"' ∧ c ≠ .scalar '\\') (s : Text) :
    unquoted .inside (w ++ s) = unquoted .inside s := by
  induction w with
  | nil => rfl
  | cons c w ih =>
    obtain ⟨hc, hw⟩ := List.forall_mem_cons.mp h
    rw [List.cons_append, unquoted, if_neg hc.1, if_neg hc.2, ih hw]

/-- What is written for a code point does not end a string. -/
theorem unquoted_escaped (c : CodePoint) (s : Text) :
    unquoted .inside (escaped c ++ s) = unquoted .inside s := by
  rw [escaped_eq]
  split_ifs with hquote hslash hfeed hreturn htab hform hback hcontrol
  · rfl
  · rfl
  · rfl
  · rfl
  · rfl
  · rfl
  · rfl
  · -- behind the backslash and the letter there are digits
    have hall : ∀ n < 32, (hexDigits 4 n).all
        (fun d => decide (d ≠ '"' ∧ d ≠ '\\')) = true := by decide
    have hdigits := forall_of_all (hall _ hcontrol)
    rw [Text.ofChars_cons, Text.ofChars_cons, List.cons_append, List.cons_append]
    refine unquoted_inside (fun d hd => ?_) s
    obtain ⟨e, he, rfl⟩ := List.mem_map.mp hd
    obtain ⟨hne, hne'⟩ := hdigits e he
    exact ⟨fun h => hne (CodePoint.scalar.inj h), fun h => hne' (CodePoint.scalar.inj h)⟩
  · exact unquoted_inside (List.forall_mem_singleton.mpr ⟨hquote, hslash⟩) s

/-- Nothing of a string stands outside of it. -/
theorem unquoted_quoted (t s : Text) :
    unquoted .outside (quoted t ++ s) = unquoted .outside s := by
  have hinside (s : Text) : unquoted .inside (t.flatMap escaped ++ s) = unquoted .inside s := by
    induction t with
    | nil => rfl
    | cons c t ih => rw [List.flatMap_cons, List.append_assoc, unquoted_escaped, ih]
  rw [quoted, List.cons_append, List.append_assoc]
  exact hinside (.scalar '"' :: s)

/-! ## Output -/

/-- A code point that is written outside of strings. -/
def IsBare (c : CodePoint) : Prop := c ≠ .scalar '"' ∧ c ≠ .scalar 'N' ∧ c ≠ .scalar 'I'

theorem isBare_ofChars {cs : List Char} (h : ∀ c ∈ cs, c ≠ '"' ∧ c ≠ 'N' ∧ c ≠ 'I') :
    ∀ c ∈ Text.ofChars cs, IsBare c := by
  intro c hc
  obtain ⟨d, hd, rfl⟩ := List.mem_map.mp hc
  obtain ⟨h1, h2, h3⟩ := h d hd
  exact ⟨fun e => h1 (CodePoint.scalar.inj e), fun e => h2 (CodePoint.scalar.inj e),
    fun e => h3 (CodePoint.scalar.inj e)⟩

theorem isBare_of_isDigit {c : Char} (h : c.isDigit = true) : c ≠ '"' ∧ c ≠ 'N' ∧ c ≠ 'I' := by
  refine ⟨?_, ?_, ?_⟩ <;> rintro rfl <;> cases h

theorem isBare_toText {t : Token} (ht : ∀ u, t ≠ .text u) : ∀ c ∈ t.toText, IsBare c := by
  cases t with
  | text u => exact absurd rfl (ht u)
  | int n =>
    refine isBare_ofChars fun c hc => ?_
    rcases Integer.mem_decimal hc with rfl | hc
    · decide
    · exact isBare_of_isDigit hc
  | real x =>
    refine isBare_ofChars fun c hc => ?_
    exact (Binary64.isRealChar_of_mem_text hc).elim (P := fun c => c ≠ '"' ∧ c ≠ 'N' ∧ c ≠ 'I')
      isBare_of_isDigit (forall_of_all (by decide))
  | bool b => cases b <;> exact isBare_ofChars (forall_of_all (by decide))
  | null => exact isBare_ofChars (forall_of_all (by decide))
  | _ => exact List.forall_mem_singleton.mpr ⟨by decide, by decide, by decide⟩

/-- What stands outside the strings of tokens with blanks between them. -/
theorem Spaced.isBare {ts : List Token} {s : Text} (h : Spaced ts s) :
    ∀ c ∈ unquoted .outside s, IsBare c := by
  induction h with
  | nil => exact List.forall_mem_nil _
  | @blank ts c s hc _ ih =>
    have hbare : IsBare c := by
      simp only [isBlank, Bool.or_eq_true, decide_eq_true_eq] at hc
      rcases hc with ((rfl | rfl) | rfl) | rfl <;> exact ⟨by decide, by decide, by decide⟩
    rw [unquoted, if_neg hbare.1]
    exact List.forall_mem_cons.mpr ⟨hbare, ih⟩
  | @token ts s t _ ih =>
    by_cases ht : ∃ u, t = .text u
    · obtain ⟨u, rfl⟩ := ht
      rw [Token.toText, unquoted_quoted]
      exact ih
    · have hbare := isBare_toText fun u hu => ht ⟨u, hu⟩
      rw [unquoted_of_ne fun c hc => (hbare c hc).1]
      exact List.forall_mem_append.mpr ⟨hbare, ih⟩

/-- The words for what is no number do not occur in bare text. -/
theorem not_infix_of_isBare {s : Text} (h : ∀ c ∈ s, IsBare c) :
    ∀ w ∈ ["NaN", "Infinity", "-Infinity"], ¬ Text.ofString w <:+: s := by
  have hmem (w : String) (c : CodePoint) (hc : c ∈ Text.ofString w) (hw : Text.ofString w <:+: s) :
      IsBare c := h c (hw.subset hc)
  simp only [List.mem_cons, List.not_mem_nil, or_false]
  rintro w (rfl | rfl | rfl) hw
  · exact (hmem _ (.scalar 'N') (by decide) hw).2.1 rfl
  · exact (hmem _ (.scalar 'I') (by decide) hw).2.2 rfl
  · exact (hmem _ (.scalar 'I') (by decide) hw).2.2 rfl

/-- In what is written, the words for what is no number stand in strings alone. -/
theorem exists_unquoted_of_write {layout : Layout} {sortKeys : Bool} {v : Value}
    {bytes : List UInt8} (h : write layout sortKeys v = .ok bytes) :
    ∃ cs, bytes = Utf8.encodeChars cs ∧ ∀ w ∈ ["NaN", "Infinity", "-Infinity"],
      ¬ Text.ofString w <:+: unquoted .outside (Text.ofChars cs) := by
  obtain ⟨ts, cs, -, hcs, rfl⟩ := exists_of_write h
  exact ⟨cs, rfl, not_infix_of_isBare (hcs ▸ spaced_render layout ts).isBare⟩

end PropertyList.Json
