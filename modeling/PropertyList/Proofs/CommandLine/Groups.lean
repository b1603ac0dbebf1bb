/-
  PropertyList.Proofs.CommandLine.Groups

  Command lines put together from groups of words that are complete in themselves.  A
  group is taken as a whole, whatever stands around it.  So what a command line asks for
  is told by looking at one option at a time: only the groups of that option matter, and
  only in their order among each other.
-/
import PropertyList.Proofs.CommandLine

namespace PropertyList.CommandLine

/-! ## Groups -/

/-- A word that is no option in any place: a hyphen alone, or a word that does not start with a
    hyphen. -/
def IsPlain (word : String) : Prop := word = "-" ∨ word.toList.head? ≠ some '-'

/-- The word that names an option. -/
def Opt.word (o : Opt) (longName : Bool) : String :=
  String.ofList (if longName then o.long else o.short)

/-- Words that are complete in themselves. -/
inductive Group where
  /-- An option, and its value in the next word. -/
  | setting (o : Opt) (longName : Bool) (value : String) (htakes : o.takesValue = true)
      (hvalue : IsPlain value)
  | flag (o : Opt) (longName : Bool) (hflag : o.takesValue = false)
  /-- An option that there is not. -/
  | unknown (longName : Bool)
  /-- A word that no option has asked for. -/
  | stray (word : String) (hword : IsPlain word)

namespace Group

/-- The words of a group. -/
def words : Group → List String
  | setting o longName value _ _ => [o.word longName, value]
  | flag o longName _ => [o.word longName]
  | unknown longName => [if longName then "--bogus" else "-x"]
  | stray word _ => [word]

/-- The option that a group sets, if it sets one. -/
def option? : Group → Option Opt
  | setting o _ _ _ _ => some o
  | flag o _ _ => some o
  | _ => none

/-- The value that a group has for its option. -/
def value? : Group → Option String
  | setting _ _ value _ _ => some value
  | _ => none

end Group

/-- The words of groups, one after the other. -/
def wordsOf (gs : List Group) : List String := gs.flatMap Group.words

/-! ## One option at a time -/

/-- The groups that set an option, or those that set none. -/
def about (key : Option Opt) (gs : List Group) : List Group := gs.filter (·.option? = key)

/-- The values that an option is given. -/
def valuesOf (o : Opt) (gs : List Group) : List String := (about (some o) gs).filterMap Group.value?

/-- Whether an option occurs. -/
def occurs (o : Opt) (gs : List Group) : Bool := !(about (some o) gs).isEmpty

/-- The words that are not wanted. -/
def leftOver (gs : List Group) : List String := wordsOf (about none gs)

/-- A value for the format starts with the name of no encoding. -/
def NamesNoFormat (gs : List Group) : Prop :=
  ∃ value ∈ valuesOf .format gs, ∀ e : Encoding, ¬ e.name.toList <+: value.toList

/-- What the last value for the format asks for: nothing else than what the input suggests if there
    is none, and otherwise the encoding with whose name it starts. -/
inductive Asks : Option String → Selector → Prop
  | nothing : Asks none .auto
  | encoding {value : String} {e : Encoding} (h : e.name.toList <+: value.toList) :
      Asks (some value) (.only e)

/-! ## What words are -/

theorem classify_of_isPlain {word : String} (h : IsPlain word) : classify word = .plain word := by
  rcases h with rfl | h
  · rfl
  · rw [classify]
    cases hword : word.toList with
    | nil => rfl
    | cons c cs =>
      rw [hword, List.head?_cons, ne_eq, Option.some.injEq] at h
      -- both forms with a hyphen in front are ruled out
      split <;> simp_all

theorem ne_mark_of_isPlain {word : String} (h : IsPlain word) : word ≠ "--" := by
  rintro rfl
  have hclass := classify_of_isPlain h
  cases hclass

theorem classify_word (o : Opt) (longName : Bool) :
    classify (o.word longName) = .option o longName none := by
  cases o <;> cases longName <;> rfl

theorem word_ne_mark (o : Opt) (longName : Bool) : o.word longName ≠ "--" := by
  cases o <;> cases longName <;> decide

/-! ## One group -/

/-- What a group does to the arguments. -/
def Group.take (a : Arguments) : Group → Except Mistake Arguments
  | setting o _ value _ _ => a.set o value.toList
  | flag o _ _ => .ok (a.raise o)
  | _ => .ok a

theorem takeWord_setting {o : Opt} (ho : o.takesValue = true) (a : Arguments) (longName : Bool) :
    a.takeWord o longName none = .ok (a, some o) := by
  rw [Arguments.takeWord, if_pos ho]

theorem takeWord_flag {o : Opt} (ho : o.takesValue = false) (a : Arguments) (longName : Bool) :
    a.takeWord o longName none = .ok (a.raise o, none) := by
  rw [Arguments.takeWord, if_neg (by simp [ho])]

/-- The words of a group are taken together, and what comes behind them is not touched. -/
theorem takeWords_group (g : Group) (a : Arguments) (unwanted rest : List String) :
    takeWords a unwanted (classifyAll (g.words ++ rest)) =
      g.take a >>= fun b =>
        takeWords b ((leftOver [g]).reverse ++ unwanted) (classifyAll rest) := by
  cases g with
  | setting o longName value htakes hvalue =>
    -- the value is plain before it is known which option asks for it
    change takeWords a unwanted (classifyAll (o.word longName :: value :: rest)) = _
    rw [classifyAll, if_neg (word_ne_mark o longName), classifyAll,
      if_neg (ne_mark_of_isPlain hvalue), classify_word, classify_of_isPlain hvalue,
      takeWords_option, takeWord_setting htakes]
    exact takeRest_plain unwanted value (classifyAll rest) a o
  | flag o longName hflag =>
    change takeWords a unwanted (classifyAll (o.word longName :: rest)) = _
    rw [classifyAll, if_neg (word_ne_mark o longName), classify_word, takeWords_option,
      takeWord_flag hflag]
    rfl
  | unknown longName => cases longName <;> rfl
  | stray word hword =>
    change takeWords a unwanted (classifyAll (word :: rest)) = _
    rw [classifyAll, if_neg (ne_mark_of_isPlain hword), classify_of_isPlain hword]
    rfl

/-! ## Groups one after the other -/

theorem valuesOf_append (o : Opt) (gs hs : List Group) :
    valuesOf o (gs ++ hs) = valuesOf o gs ++ valuesOf o hs := by
  rw [valuesOf, about, List.filter_append, List.filterMap_append]
  rfl

theorem occurs_append (o : Opt) (gs hs : List Group) :
    occurs o (gs ++ hs) = (occurs o gs || occurs o hs) := by
  simp only [occurs, about, List.filter_append]
  cases List.filter (fun g => decide (g.option? = some o)) gs <;> rfl

theorem leftOver_append (gs hs : List Group) : leftOver (gs ++ hs) = leftOver gs ++ leftOver hs := by
  rw [leftOver, about, List.filter_append, wordsOf, List.flatMap_append]
  rfl

theorem namesNoFormat_append (gs hs : List Group) :
    NamesNoFormat (gs ++ hs) ↔ NamesNoFormat gs ∨ NamesNoFormat hs := by
  simp only [NamesNoFormat, valuesOf_append, List.mem_append, or_and_right, exists_or]

/-- Words that are put together from groups are taken group by group. -/
theorem takeWords_wordsOf (gs : List Group) (a : Arguments) (unwanted : List String) :
    takeWords a unwanted (classifyAll (wordsOf gs)) =
      (gs.foldlM (fun a g => g.take a) a) >>= fun b => .ok (b, unwanted.reverse ++ leftOver gs) := by
  -- group by group; the words that are not wanted pile up with the last one on top
  induction gs generalizing a unwanted with
  | nil =>
    rw [leftOver]
    exact congrArg (fun words => Except.ok (a, words)) (List.append_nil _).symm
  | cons g gs ih =>
    rw [wordsOf, List.flatMap_cons, ← wordsOf, takeWords_group, List.foldlM_cons, bind_assoc]
    congr 1
    funext b
    rw [ih, List.reverse_append, List.reverse_reverse, List.append_assoc, ← leftOver_append,
      List.singleton_append]

/-! ## What groups ask for -/

/-- The selector of a value, if there is one. -/
def asked (value : String) : Selector := (Selector.ofWord? value.toList).getD .auto

/-- The arguments behind groups: the last value of an option counts, and a flag that occurs. -/
def Arguments.after (a : Arguments) (gs : List Group) : Arguments where
  infile := (valuesOf .infile gs).getLast?.or a.infile
  outfile := (valuesOf .outfile gs).getLast?.or a.outfile
  format := ((valuesOf .format gs).getLast?.map fun value => .value (asked value)).getD a.format
  debug := occurs .debug gs || a.debug
  help := occurs .help gs || a.help
  version := occurs .version gs || a.version

theorem after_append (a : Arguments) (gs hs : List Group) :
    a.after (gs ++ hs) = (a.after gs).after hs := by
  simp only [Arguments.after, valuesOf_append, occurs_append, List.getLast?_append, Option.or_assoc,
    Bool.or_assoc, Bool.or_left_comm]
  -- a value of the second groups hides those of the first
  congr 1
  cases (valuesOf .format hs).getLast? <;> rfl

/-! ## Values -/

/-- No two encodings have names with which one word could start. -/
theorem ofWord?_of_name {word : List Char} {e : Encoding} (h : e.name.toList <+: word) :
    Selector.ofWord? word = some (.only e) := by
  obtain ⟨rest, rfl⟩ := h
  cases e <;> rfl

theorem ofWord?_eq_none {word : List Char} (h : ∀ e : Encoding, ¬ e.name.toList <+: word) :
    Selector.ofWord? word = none := by
  rw [Selector.ofWord?, Option.map_eq_none_iff, List.find?_eq_none]
  intro e _ hname
  exact h e (List.isPrefixOf_iff_prefix.mp hname)

theorem exists_encoding {gs : List Group} (h : ¬ NamesNoFormat gs) {value : String}
    (hvalue : value ∈ valuesOf .format gs) : ∃ e : Encoding, e.name.toList <+: value.toList := by
  by_contra hnone
  exact h ⟨value, hvalue, not_exists.mp hnone⟩

theorem asks_asked {gs : List Group} (h : ¬ NamesNoFormat gs) :
    Asks (valuesOf .format gs).getLast?
      (((valuesOf .format gs).getLast?.map asked).getD .auto) := by
  cases hlast : (valuesOf .format gs).getLast? with
  | none => exact .nothing
  | some value =>
    obtain ⟨e, he⟩ := exists_encoding h (List.mem_of_getLast? hlast)
    rw [Option.map_some, Option.getD_some, asked, ofWord?_of_name he]
    exact .encoding he

theorem toList_ne_mark {value : String} (h : IsPlain value) : value.toList ≠ ['-', '-'] :=
  fun e => ne_mark_of_isPlain h (String.toList_inj.mp e)

theorem set_outfile {value : String} (h : IsPlain value) (a : Arguments) :
    a.set .outfile value.toList = .ok { a with outfile := some value } := by
  simp only [Arguments.set, if_neg (toList_ne_mark h), String.ofList_toList]

theorem set_format {value : String} (h : IsPlain value) {selector : Selector}
    (hselector : Selector.ofWord? value.toList = some selector) (a : Arguments) :
    a.set .format value.toList = .ok { a with format := .value selector } := by
  simp only [Arguments.set, if_neg (toList_ne_mark h), hselector]

theorem set_format_of_none {value : String} (h : IsPlain value)
    (hnone : Selector.ofWord? value.toList = none) (a : Arguments) :
    a.set .format value.toList = .error .unknownFormat := by
  simp only [Arguments.set, if_neg (toList_ne_mark h), hnone]

/-! ## Mistakes in values -/

/-- A single value for the format that starts with the name of an encoding is no mistake. -/
theorem not_namesNoFormat {gs : List Group} {value : String} {e : Encoding}
    (hvalues : valuesOf .format gs = [value]) (he : e.name.toList <+: value.toList) :
    ¬ NamesNoFormat gs := by
  rintro ⟨other, hother, hnone⟩
  rw [hvalues] at hother
  obtain rfl := List.mem_singleton.mp hother
  exact hnone e he

theorem take_eq_after {g : Group} (h : ¬ NamesNoFormat [g]) (a : Arguments) :
    g.take a = .ok (a.after [g]) := by
  cases g with
  | setting o longName value htakes hvalue =>
    cases o with
    | infile => exact set_infile (ne_mark_of_isPlain hvalue) a
    | outfile => exact set_outfile hvalue a
    | format =>
      -- only the name of a format can be refused here
      obtain ⟨e, he⟩ := exists_encoding h (List.mem_singleton.mpr rfl)
      have hselector := ofWord?_of_name he
      have hasked : asked value = .only e := by rw [asked, hselector, Option.getD_some]
      refine (set_format hvalue hselector a).trans ?_
      rw [← hasked]
      rfl
    | _ => cases htakes
  | flag o longName hflag =>
    cases o with
    | debug => rfl
    | help => rfl
    | version => rfl
    | _ => cases hflag
  | unknown longName => rfl
  | stray word hword => rfl

theorem take_of_namesNoFormat {g : Group} (h : NamesNoFormat [g]) (a : Arguments) :
    g.take a = .error .unknownFormat := by
  obtain ⟨value, hvalue, hnone⟩ := h
  cases g with
  | setting o longName given htakes hgiven =>
    cases o with
    | format =>
      obtain rfl : value = given := List.mem_singleton.mp hvalue
      exact set_format_of_none hgiven (ofWord?_eq_none hnone) a
    | infile => cases hvalue
    | outfile => cases hvalue
    | _ => cases htakes
  | flag o longName hflag => cases o <;> cases hvalue
  | unknown longName => cases hvalue
  | stray word hword => cases hvalue

theorem foldlM_take_eq_after {gs : List Group} (h : ¬ NamesNoFormat gs) (a : Arguments) :
    gs.foldlM (fun a g => g.take a) a = .ok (a.after gs) := by
  induction gs generalizing a with
  | nil => rfl
  | cons g gs ih =>
    rw [← List.singleton_append, namesNoFormat_append, not_or] at h
    rw [List.foldlM_cons, take_eq_after h.1]
    exact (ih h.2 _).trans (congrArg Except.ok (after_append a [g] gs).symm)

theorem foldlM_take_of_namesNoFormat {gs : List Group} (h : NamesNoFormat gs) (a : Arguments) :
    gs.foldlM (fun a g => g.take a) a = .error .unknownFormat := by
  induction gs generalizing a with
  | nil =>
    obtain ⟨value, hvalue, -⟩ := h
    cases hvalue
  | cons g gs ih =>
    rw [← List.singleton_append, namesNoFormat_append] at h
    rw [List.foldlM_cons]
    -- the first mistake ends the run, so nothing behind it is looked at
    by_cases hg : NamesNoFormat [g]
    · rw [take_of_namesNoFormat hg]
      rfl
    · rw [take_eq_after hg]
      exact ih (h.resolve_left hg) _

/-! ## Command lines -/

theorem parse_of_namesNoFormat {gs : List Group} (h : NamesNoFormat gs) :
    parse (wordsOf gs) = .error .unknownFormat := by
  rw [parse_eq, takeWords_wordsOf, foldlM_take_of_namesNoFormat h]
  rfl

theorem parse_wordsOf {gs : List Group} (h : ¬ NamesNoFormat gs) :
    parse (wordsOf gs) = noneUnwanted (({} : Arguments).after gs, leftOver gs) := by
  rw [parse_eq, takeWords_wordsOf, foldlM_take_eq_after h]
  rfl

/-- The arguments of groups without a mistake. -/
theorem parse_of_complete {gs : List Group} (h : ¬ NamesNoFormat gs) (hleft : leftOver gs = []) :
    parse (wordsOf gs) = .ok
      { infile := (valuesOf .infile gs).getLast?
        outfile := (valuesOf .outfile gs).getLast?
        format := .value (((valuesOf .format gs).getLast?.map asked).getD .auto)
        debug := occurs .debug gs
        help := occurs .help gs
        version := occurs .version gs } := by
  rw [parse_wordsOf h, hleft, noneUnwanted]
  simp only [List.isEmpty_nil, if_true, Arguments.after, Option.or_none, Bool.or_false]
  cases (valuesOf .format gs).getLast? <;> rfl

/-- Groups with the same groups for each option ask for the same. -/
theorem parse_congr {gs hs : List Group} (h : ∀ key, about key gs = about key hs) :
    parse (wordsOf gs) = parse (wordsOf hs) := by
  have hvalues (o : Opt) : valuesOf o gs = valuesOf o hs := by rw [valuesOf, h, valuesOf]
  have hoccurs (o : Opt) : occurs o gs = occurs o hs := by rw [occurs, h, occurs]
  have hleft : leftOver gs = leftOver hs := by rw [leftOver, h, leftOver]
  have hformat : NamesNoFormat gs ↔ NamesNoFormat hs := by rw [NamesNoFormat, hvalues, NamesNoFormat]
  by_cases hgs : NamesNoFormat gs
  · rw [parse_of_namesNoFormat hgs, parse_of_namesNoFormat (hformat.mp hgs)]
  · rw [parse_wordsOf hgs, parse_wordsOf (mt hformat.mpr hgs), hleft]
    simp only [Arguments.after, hvalues, hoccurs]

end PropertyList.CommandLine
