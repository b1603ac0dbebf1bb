/-
  PropertyList.Proofs.CommandLine

  How the words of a command line act together.  A complete command line can be cut
  behind any option; the words behind the cut go on from its arguments.  Each option
  touches its own argument alone, so words without an option neither change its
  argument nor depend on it.
-/
import PropertyList.CommandLine
import PropertyList.Proofs.Value

namespace PropertyList.CommandLine

/-! ## Options in words -/

/-- The options that short flags in one word stand for, up to one that takes the rest as its
    value. -/
def clustered : List Char → List Opt
  | [] => []
  | c :: rest =>
    match Opt.named? ['-', c] with
    | none => []
    | some o => o :: if o.takesValue then [] else clustered rest

/-- The options that a word stands for. -/
def Word.options : Word → List Opt
  | .option o _ value => o :: if o.takesValue then [] else clustered (value.getD [])
  | _ => []

/-- None of the words stands for an option. -/
def Lacks (o : Opt) (words : List String) : Prop := ∀ w ∈ classifyAll words, o ∉ w.options

/-! ## Changes that options do not touch -/

/-- Whether an option is taken before or after a change of the arguments does not matter. -/
structure Commutes (f : Arguments → Arguments) (o : Opt) : Prop where
  raise : ∀ a, (f a).raise o = f (a.raise o)
  set : ∀ a value, (f a).set o value = (a.set o value).map f

theorem commutes_infile {o : Opt} (ho : o ≠ .infile) (path : Option String) :
    Commutes (fun a => { a with infile := path }) o where
  raise a := by cases o <;> rfl
  set a value := by
    cases o with
    | infile => exact absurd rfl ho
    | format =>
      simp only [Arguments.set]
      split
      · rfl
      · cases Selector.ofWord? value <;> rfl
    | _ => rfl

theorem commutes_debug {o : Opt} (ho : o ≠ .debug) (on : Bool) :
    Commutes (fun a => { a with debug := on }) o where
  raise a := by
    cases o with
    | debug => exact absurd rfl ho
    | _ => rfl
  set a value := by
    cases o with
    | format =>
      simp only [Arguments.set]
      split
      · rfl
      · cases Selector.ofWord? value <;> rfl
    | _ => rfl

variable {f : Arguments → Arguments}

theorem options_cluster {o next : Opt} {c : Char} {rest : List Char} {longName : Bool}
    (ho : ¬ o.takesValue = true) (hnext : Opt.named? ['-', c] = some next) :
    (Word.option o longName (some (c :: rest))).options =
      o :: (Word.option next false (some rest)).options := by
  simp only [Word.options, if_neg ho, Option.getD_some, clustered, hnext]

theorem takeWord_of_takesValue {o : Opt} (ho : o.takesValue = true) (a : Arguments)
    (longName : Bool) (value : List Char) :
    a.takeWord o longName (some value) = (a.set o value).map (·, none) := by
  cases value <;> rw [Arguments.takeWord, if_pos ho]

theorem takeValue_map {o : Opt} (ho : Commutes f o) (value : List Char) (a : Arguments) :
    ((f a).set o value).map (fun a => (a, (none : Option Opt))) =
      ((a.set o value).map fun a => (a, none)).map (Prod.map f id) := by
  rw [ho.set]
  cases a.set o value <;> rfl

theorem takeWord_map {o : Opt} {longName : Bool} {value : Option (List Char)}
    (hf : ∀ p ∈ (Word.option o longName value).options, Commutes f p) (a : Arguments) :
    (f a).takeWord o longName value = (a.takeWord o longName value).map (Prod.map f id) := by
  have ho : Commutes f o := hf o List.mem_cons_self
  fun_induction Arguments.takeWord a o longName value with
  | case1 a o longName htakes => rw [Arguments.takeWord, if_pos htakes]; rfl
  | case2 a o longName htakes => rw [Arguments.takeWord, if_neg htakes, ho.raise]; rfl
  | case3 a o longName value htakes =>
    rw [takeWord_of_takesValue htakes]
    exact takeValue_map ho value a
  | case4 a o longName htakes => rw [Arguments.takeWord, if_neg htakes]; rfl
  | case5 a o htakes c rest => rw [Arguments.takeWord, if_neg htakes, if_pos rfl]; rfl
  | case6 a o longName htakes c rest hshort hnamed =>
    rw [Arguments.takeWord, if_neg htakes, if_neg hshort, hnamed]
    rfl
  -- the flags of a cluster are taken one by one
  | case7 a o longName htakes c hshort next hnamed ih =>
    rw [options_cluster htakes hnamed] at hf
    have hnext := fun p hp => hf p (List.mem_cons_of_mem _ hp)
    conv_lhs => rw [Arguments.takeWord, if_neg htakes, if_neg hshort, hnamed]
    dsimp only
    rw [ho.raise]
    exact ih hnext (hnext next List.mem_cons_self)
  | case8 a o longName htakes c hshort next hnamed d rest ih =>
    rw [options_cluster htakes hnamed] at hf
    have hnext := fun p hp => hf p (List.mem_cons_of_mem _ hp)
    conv_lhs => rw [Arguments.takeWord, if_neg htakes, if_neg hshort, hnamed]
    dsimp only
    rw [ho.raise]
    exact ih hnext (hnext next List.mem_cons_self)

/-- An option that waits for its value in the next word is one of the options of its word. -/
theorem mem_options_of_pending {a b : Arguments} {o p : Opt} {longName : Bool}
    {value : Option (List Char)} (h : a.takeWord o longName value = .ok (b, some p)) :
    p ∈ (Word.option o longName value).options := by
  fun_induction Arguments.takeWord a o longName value with
  | case1 a o longName htakes =>
    obtain rfl := Option.some.inj (Prod.mk.inj (Except.ok.inj h)).2
    exact List.mem_cons_self
  | case3 a o longName value htakes =>
    obtain ⟨c, -, hc⟩ := exists_of_map_eq_ok h
    cases hc
  | case7 a o longName htakes c hshort next hnamed ih =>
    rw [options_cluster htakes hnamed]
    exact List.mem_cons_of_mem _ (ih h)
  | case8 a o longName htakes c hshort next hnamed d rest ih =>
    rw [options_cluster htakes hnamed]
    exact List.mem_cons_of_mem _ (ih h)
  | _ => cases h

/-! ## Words one after the other -/

/-- What comes behind a word with options: the next word, or first the value of the last option. -/
def takeRest (unwanted : List String) (rest : List Word) :
    Arguments × Option Opt → Except Mistake (Arguments × List String)
  | (a, none) => takeWords a unwanted rest
  | (a, some o) =>
    match rest with
    | .plain w :: rest => a.set o w.toList >>= fun a => takeWords a unwanted rest
    | _ => .error (.missingValue o)

theorem takeRest_plain (unwanted : List String) (w : String) (rest : List Word) (a : Arguments)
    (o : Opt) : takeRest unwanted (.plain w :: rest) (a, some o) =
      a.set o w.toList >>= fun a => takeWords a unwanted rest := rfl

theorem takeWords_option (a : Arguments) (unwanted : List String) (o : Opt) (longName : Bool)
    (value : Option (List Char)) (rest : List Word) :
    takeWords a unwanted (.option o longName value :: rest) =
      a.takeWord o longName value >>= takeRest unwanted rest := by
  rw [takeWords]
  congr 1
  funext ⟨b, pending⟩
  cases pending with
  | none => rfl
  | some p =>
    cases rest with
    | nil => rfl
    | cons w ws => cases w <;> rfl

/-- An option can take two words, so a proof about all words has both what is behind the first and
    what is behind the second. -/
theorem words_induction {motive : List Word → Prop} (nil : motive [])
    (cons : ∀ w ws, motive ws → motive ws.tail → motive (w :: ws)) (ws : List Word) :
    motive ws := by
  have hboth : motive ws ∧ motive ws.tail := by
    induction ws with
    | nil => exact ⟨nil, nil⟩
    | cons w ws ih => exact ⟨cons w ws ih.1 ih.2, ih.1⟩
  exact hboth.1

/-- The words behind a complete command line go on from its arguments. -/
theorem takeWords_append {a b : Arguments} {unwanted more : List String} {ws : List Word}
    (h : takeWords a unwanted ws = .ok (b, more)) (rest : List Word) :
    takeWords a unwanted (ws ++ rest) = takeWords b more.reverse rest := by
  induction ws using words_induction generalizing a unwanted with
  | nil =>
    obtain ⟨rfl, rfl⟩ := Prod.mk.inj (Except.ok.inj h)
    rw [List.reverse_reverse, List.nil_append]
  | cons w ws ih ihtail =>
    cases w with
    | plain s => exact ih h
    | unknown s => exact ih h
    | mark => exact ih h
    | option o longName value =>
      rw [takeWords_option] at h
      obtain ⟨⟨c, pending⟩, htake, h⟩ := exists_of_bind_eq_ok h
      rw [List.cons_append, takeWords_option, htake]
      cases pending with
      | none => exact ih h
      | some p =>
        -- what is complete does not end in an option that waits for its value
        match ws with
        | .plain s :: ws =>
          rw [takeRest_plain] at h
          obtain ⟨d, hset, h⟩ := exists_of_bind_eq_ok h
          change takeRest unwanted (.plain s :: (ws ++ rest)) (c, some p) = _
          rw [takeRest_plain, hset]
          exact ihtail h

/-- A change of the arguments before words that do not touch it is a change behind them. -/
theorem takeWords_map {ws : List Word} (hf : ∀ w ∈ ws, ∀ o ∈ w.options, Commutes f o)
    (a : Arguments) (unwanted : List String) :
    takeWords (f a) unwanted ws = (takeWords a unwanted ws).map (Prod.map f id) := by
  induction ws using words_induction generalizing a unwanted with
  | nil => rfl
  | cons w ws ih ihtail =>
    have hfrest : ∀ w ∈ ws, ∀ o ∈ w.options, Commutes f o := fun w hw =>
      hf w (List.mem_cons_of_mem _ hw)
    cases w with
    | plain s => exact ih hfrest a _
    | unknown s => exact ih hfrest a _
    | mark => exact ih hfrest a _
    | option o longName value =>
      rw [takeWords_option, takeWords_option, takeWord_map (hf _ List.mem_cons_self)]
      cases htake : a.takeWord o longName value with
      | error m => rfl
      | ok r =>
        obtain ⟨c, pending⟩ := r
        cases pending with
        | none => exact ih hfrest c _
        | some p =>
          -- an option that waits gets its value from the next word alone
          match ws with
          | [] => rfl
          | .unknown s :: ws => rfl
          | .mark :: ws => rfl
          | .option _ _ _ :: ws => rfl
          | .plain s :: ws =>
            have hp := hf _ List.mem_cons_self p (mem_options_of_pending htake)
            change takeRest unwanted (.plain s :: ws) (f c, some p) =
              (takeRest unwanted (.plain s :: ws) (c, some p)).map (Prod.map f id)
            rw [takeRest_plain, takeRest_plain, hp.set]
            cases c.set p s.toList with
            | error m => rfl
            | ok d => exact ihtail (fun w hw => hfrest w (List.mem_cons_of_mem _ hw)) d _

/-! ## Command lines -/

theorem classifyAll_append {before : List String} (h : "--" ∉ before) (after : List String) :
    classifyAll (before ++ after) = classifyAll before ++ classifyAll after := by
  induction before with
  | nil => rfl
  | cons w rest ih =>
    obtain ⟨hw, hrest⟩ := not_or.mp (mt List.mem_cons.mpr h)
    rw [List.cons_append, classifyAll, classifyAll, if_neg (Ne.symm hw), if_neg (Ne.symm hw),
      ih hrest, List.cons_append]

theorem mark_mem_classifyAll {words : List String} (h : "--" ∈ words) :
    .mark ∈ classifyAll words := by
  induction words with
  | nil => cases h
  | cons w rest ih =>
    rw [classifyAll]
    split
    · exact List.mem_cons_self
    · next hw =>
      have hrest := (List.mem_cons.mp h).resolve_left (Ne.symm hw)
      exact List.mem_cons_of_mem _ (ih hrest)

/-- Without unwanted words there is no mark either. -/
theorem mark_not_mem {a b : Arguments} {unwanted : List String} {ws : List Word}
    (h : takeWords a unwanted ws = .ok (b, [])) : unwanted = [] ∧ .mark ∉ ws := by
  induction ws using words_induction generalizing a unwanted with
  | nil =>
    have hnil := (Prod.mk.inj (Except.ok.inj h)).2
    exact ⟨List.reverse_eq_nil_iff.mp hnil, List.not_mem_nil⟩
  | cons w ws ih ihtail =>
    cases w with
    -- each of these words would have become unwanted
    | plain s => cases (ih h).1
    | unknown s => cases (ih h).1
    | mark => cases (ih h).1
    | option o longName value =>
      rw [takeWords_option] at h
      obtain ⟨⟨c, pending⟩, -, h⟩ := exists_of_bind_eq_ok h
      cases pending with
      | none =>
        obtain ⟨hnil, hws⟩ := ih h
        exact ⟨hnil, by simpa using hws⟩
      | some p =>
        match ws with
        | .plain s :: ws =>
          obtain ⟨d, -, h⟩ := exists_of_bind_eq_ok h
          obtain ⟨hnil, hws⟩ := ihtail h
          exact ⟨hnil, by simpa using hws⟩

/-- The arguments, if no word is left over. -/
def noneUnwanted (r : Arguments × List String) : Except Mistake Arguments :=
  if r.2.isEmpty then .ok r.1 else .error (.unwanted r.2)

theorem parse_eq (words : List String) :
    parse words = takeWords {} [] (classifyAll words) >>= noneUnwanted := rfl

theorem takeWords_of_parse {words : List String} {a : Arguments} (h : parse words = .ok a) :
    takeWords {} [] (classifyAll words) = .ok (a, []) := by
  obtain ⟨⟨b, more⟩, htake, h⟩ := exists_of_bind_eq_ok h
  rw [htake]
  dsimp only at h
  split at h
  · next hmore =>
    rw [Except.ok.inj h, List.isEmpty_iff.mp hmore]
  · cases h

/-- A command line behind a complete one goes on from its arguments. -/
theorem parse_append {before : List String} {a : Arguments} (h : parse before = .ok a)
    (after : List String) :
    parse (before ++ after) = takeWords a [] (classifyAll after) >>= noneUnwanted := by
  have htake := takeWords_of_parse h
  have hmark : "--" ∉ before := fun hmem => (mark_not_mem htake).2 (mark_mem_classifyAll hmem)
  rw [parse_eq, classifyAll_append hmark, takeWords_append htake, List.reverse_nil]

theorem noneUnwanted_map (f : Arguments → Arguments) (r : Except Mistake (Arguments × List String)) :
    r.map (Prod.map f id) >>= noneUnwanted = (r >>= noneUnwanted).map f := by
  rcases r with m | ⟨a, more⟩
  · rfl
  · cases more <;> rfl

/-! ## The input file -/

/-- Words that name an input file, in each form that there is for it.  Only the form in one word can
    take a path that looks like an option. -/
inductive NamesInput (path : String) : List String → Prop
  | short (h : classify path = .plain path) : NamesInput path ["-i", path]
  | long (h : classify path = .plain path) : NamesInput path ["--infile", path]
  | joined (h : path ≠ "--") : NamesInput path ["--infile=" ++ path]

theorem set_infile {path : String} (h : path ≠ "--") (a : Arguments) :
    a.set .infile path.toList = .ok { a with infile := some path } := by
  have hmark : path.toList ≠ ['-', '-'] := fun e => h (String.toList_inj.mp e)
  simp only [Arguments.set, if_neg hmark, String.ofList_toList]

/-- No option has an equals sign in its name. -/
theorem named?_eq_none {cs : List Char} (h : '=' ∈ cs) : Opt.named? cs = none := by
  have hshort (o : Opt) : '=' ∉ o.short := by cases o <;> decide
  have hlong (o : Opt) : '=' ∉ o.long := by cases o <;> decide
  refine List.find?_eq_none.mpr fun o _ => ?_
  simp only [Bool.or_eq_true, decide_eq_true_eq, not_or]
  exact ⟨fun e => hshort o (e ▸ h), fun e => hlong o (e ▸ h)⟩

/-- A name, an equals sign and a value are one word. -/
theorem classify_of_value {word : String} {second : Char} {tail name value : List Char} {o : Opt}
    (hword : word.toList = '-' :: second :: tail)
    (hspan : ('-' :: second :: tail).span (· ≠ '=') = (name, '=' :: value))
    (hname : Opt.named? name = some o) :
    classify word = .option o (second = '-') (some value) := by
  have hmem : '=' ∈ '-' :: second :: tail := by
    rw [List.span_eq_takeWhile_dropWhile] at hspan
    refine (List.dropWhile_suffix fun c => decide (c ≠ '=')).subset ?_
    rw [(Prod.mk.inj hspan).2]
    exact List.mem_cons_self
  rw [classify]
  simp only [hword, named?_eq_none hmem, hspan, hname]

theorem classify_joined (path : String) :
    classify ("--infile=" ++ path) = .option .infile true (some path.toList) := by
  have hchars : ("--infile=" ++ path).toList = "--infile".toList ++ '=' :: path.toList := by
    rw [String.toList_append]
    rfl
  have hspan : ("--infile".toList ++ '=' :: path.toList).span (· ≠ '=') =
      ("--infile".toList, '=' :: path.toList) :=
    span_append (forall_of_all (by decide)) fun c hc => by obtain rfl := Option.some.inj hc; rfl
  exact classify_of_value hchars hspan (by decide)

theorem takeWords_namesInput {path : String} {given : List String} (h : NamesInput path given)
    (a : Arguments) (rest : List String) :
    takeWords a [] (classifyAll (given ++ rest)) =
      takeWords { a with infile := some path } [] (classifyAll rest) := by
  -- the two spellings of the option with the path as a word of its own
  have htwo (hplain : classify path = .plain path) (longName : Bool) :
      takeWords a [] (.option .infile longName none :: classifyAll (path :: rest)) =
        takeWords { a with infile := some path } [] (classifyAll rest) := by
    have hmark : path ≠ "--" := by
      rintro rfl
      cases hplain
    have htake : a.takeWord .infile longName none = .ok (a, some .infile) := by
      rw [Arguments.takeWord]
      rfl
    rw [takeWords_option, classifyAll, if_neg hmark, hplain, htake]
    change takeRest [] (.plain path :: _) (a, some .infile) = _
    rw [takeRest_plain, set_infile hmark]
    rfl
  cases h with
  | short hplain => exact htwo hplain false
  | long hplain => exact htwo hplain true
  | joined hmark =>
    have hword : "--infile=" ++ path ≠ "--" := by
      intro e
      have hclass := classify_joined path
      rw [e] at hclass
      cases hclass
    have htake : a.takeWord .infile true (some path.toList) =
        .ok ({ a with infile := some path }, none) := by
      rw [takeWord_of_takesValue rfl, set_infile hmark]
      rfl
    rw [List.singleton_append, classifyAll, if_neg hword, classify_joined, takeWords_option, htake]
    rfl

/-- Where no other word is about the input file, words that name one change nothing else. -/
theorem parse_namesInput {path : String} {before given after : List String}
    (hbefore : (parse before).isOk = true) (hgiven : NamesInput path given)
    (hlacks : Lacks .infile (before ++ after)) :
    parse (before ++ given ++ after) =
      (parse (before ++ after)).map fun a => { a with infile := some path } := by
  cases hparse : parse before with
  | error m => rw [hparse] at hbefore; cases hbefore
  | ok a =>
    have hcommutes : ∀ w ∈ classifyAll after, ∀ o ∈ w.options,
        Commutes (fun a => { a with infile := some path }) o := by
      intro w hw o ho
      have htake := takeWords_of_parse hparse
      have hmark : "--" ∉ before := fun hmem => (mark_not_mem htake).2 (mark_mem_classifyAll hmem)
      rw [Lacks, classifyAll_append hmark] at hlacks
      refine commutes_infile (fun e => ?_) _
      exact hlacks w (List.mem_append_right _ hw) (e ▸ ho)
    rw [List.append_assoc, parse_append hparse, parse_append hparse, takeWords_namesInput hgiven,
      takeWords_map hcommutes, noneUnwanted_map]

/-- A change that only one option can tell, and that is none at the start, is none behind words
    without that option. -/
theorem map_eq_of_lacks {o : Opt} (hf : ∀ p ≠ o, Commutes f p) (hstart : f {} = {})
    {words : List String} {a : Arguments} (hlacks : Lacks o words) (h : parse words = .ok a) :
    f a = a := by
  have hmap := takeWords_map (fun w hw p hp => hf p fun e => hlacks w hw (e ▸ hp)) {} []
  rw [hstart, takeWords_of_parse h] at hmap
  exact (congrArg Prod.fst (Except.ok.inj hmap)).symm

/-- Words without an option give the argument that there is without words. -/
theorem infile_eq_none {words : List String} {a : Arguments} (hlacks : Lacks .infile words)
    (h : parse words = .ok a) : a.infile = none := by
  have hsame := map_eq_of_lacks (fun _ ho => commutes_infile ho none) rfl hlacks h
  exact (congrArg (·.infile) hsame).symm

theorem debug_eq_false {words : List String} {a : Arguments} (hlacks : Lacks .debug words)
    (h : parse words = .ok a) : a.debug = false := by
  have hsame := map_eq_of_lacks (fun _ ho => commutes_debug ho false) rfl hlacks h
  exact (congrArg (·.debug) hsame).symm

end PropertyList.CommandLine
