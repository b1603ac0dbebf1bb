/-
  PropertyList.Proofs.Session.Precedence

  What a run does first.  A mistake anywhere in the command line comes before a request
  for help, that before one for the version, and that before a conversion, wherever the
  words stand.
-/
import PropertyList.Proofs.CommandLine.Groups
import PropertyList.Session

namespace PropertyList.Session

open CommandLine

variable {settings : Settings} {gs : List Group}

/-! ## The log -/

/-- The settings with everything logged. -/
def debugging (s : Settings) : Settings := { s with logLevel := Text.ofString "DEBUG" }

/-- To ask for debugging is to set the level of the log.  A conversion does not look at the flags
    for information. -/
theorem conversion_eq (settings : Settings) (a : Arguments) :
    conversion settings a =
      conversion (if a.debug then debugging settings else settings)
        { infile := a.infile, outfile := a.outfile, format := a.format } := by
  cases hdebug : a.debug with
  | false =>
    simp only [conversion, hdebug]
    rfl
  | true =>
    have hlogs : (debugging settings).logsEverything = true := rfl
    simp only [conversion, hdebug, if_true, hlogs, Bool.true_or, Bool.or_true]
    rfl

/-! ## Mistakes, information, conversions -/

theorem start_of_error {words : List String} {m : Mistake} (h : parse words = .error m) :
    start settings words = reportError m.message (.print (usageText settings) (.exit 0)) := by
  rw [start, h]

theorem message_unknownFormat :
    Mistake.unknownFormat.message = "argument -f/--format: Unsupported output format" := by
  decide

/-- A command line of groups is judged by what occurs in it, not by where.  A value that names no
    format is reported, and otherwise the words that are not wanted, all of them in their order;
    either comes with the usage text, and nothing is read.  Without a mistake, a request for help
    is answered first and one for the version next.  What is left is a conversion with the last
    input, the last output and the last format that were given, and with everything logged exactly
    if debugging is asked for.  So groups that set different options can trade places: only the order
    of those that set the same option counts, and of the words that are not wanted. -/
theorem start_wordsOf (settings : Settings) (gs : List Group) :
    (NamesNoFormat gs →
      start settings (wordsOf gs) =
        reportError "argument -f/--format: Unsupported output format"
          (.print (usageText settings) (.exit 0))) ∧
    (¬ NamesNoFormat gs → leftOver gs ≠ [] →
      start settings (wordsOf gs) =
        reportError ("unrecognized arguments: " ++ " ".intercalate (leftOver gs))
          (.print (usageText settings) (.exit 0))) ∧
    (¬ NamesNoFormat gs → leftOver gs = [] →
      (occurs .help gs = true →
        start settings (wordsOf gs) = .print (usageText settings) (.exit 0)) ∧
      (occurs .help gs = false → occurs .version gs = true →
        start settings (wordsOf gs) = .print (Text.ofString versionText) (.exit 0)) ∧
      (occurs .help gs = false → occurs .version gs = false →
        ∃ selector, Asks (valuesOf .format gs).getLast? selector ∧
          start settings (wordsOf gs) =
            conversion (if occurs .debug gs then debugging settings else settings)
              { infile := (valuesOf .infile gs).getLast?
                outfile := (valuesOf .outfile gs).getLast?
                format := .value selector })) ∧
    ∀ hs, (∀ key, about key hs = about key gs) →
      start settings (wordsOf hs) = start settings (wordsOf gs) := by
  refine ⟨fun h => ?_, fun h hleft => ?_, fun h hleft => ?_, fun hs h => ?_⟩
  · rw [start_of_error (parse_of_namesNoFormat h), message_unknownFormat]
  · have hparse : parse (wordsOf gs) = .error (.unwanted (leftOver gs)) := by
      rw [parse_wordsOf h, noneUnwanted, if_neg (by simpa using hleft)]
    exact start_of_error hparse
  · rw [start, parse_of_complete h hleft]
    dsimp only
    refine ⟨fun hon => if_pos hon, fun hoff hon => ?_, fun hoff hoff' => ?_⟩
    · rw [if_neg (by simp [hoff]), if_pos hon]
    · refine ⟨_, asks_asked h, ?_⟩
      rw [if_neg (by simp [hoff]), if_neg (by simp [hoff']), conversion_eq]
  · rw [start, parse_congr h, ← start]

/-- The later of two formats counts, and the other options can stand around them as they like; a word
    that is not wanted comes before the help that is asked for in front of it. -/
theorem start_wordsOf_formats :
    ∃ gs hs mistaken : List Group,
      wordsOf gs = ["-f", "xml1", "-d", "--infile", "a", "--format", "json"] ∧
      wordsOf hs = ["--infile", "a", "-f", "xml1", "--format", "json", "-d"] ∧
      wordsOf mistaken = ["-h", "-i", "-", "--bogus"] ∧
      ¬ NamesNoFormat gs ∧ leftOver gs = [] ∧ (∀ key, about key hs = about key gs) ∧
      ¬ NamesNoFormat mistaken ∧ leftOver mistaken = ["--bogus"] ∧
      start {} (wordsOf gs) =
        conversion (debugging {}) { infile := some "a", format := .value (.only .json) } ∧
      start {} (wordsOf hs) = start {} (wordsOf gs) ∧
      start {} (wordsOf mistaken) =
        reportError "unrecognized arguments: --bogus" (.print (usageText {}) (.exit 0)) := by
  let first : Group := .setting .format false "xml1" rfl (.inr (by decide))
  let last : Group := .setting .format true "json" rfl (.inr (by decide))
  let input : Group := .setting .infile true "a" rfl (.inr (by decide))
  let gs : List Group := [first, .flag .debug false rfl, input, last]
  let hs : List Group := [input, first, last, .flag .debug false rfl]
  let mistaken : List Group :=
    [.flag .help false rfl, .setting .infile false "-" rfl (.inl rfl), .unknown true]
  have hgood : ¬ NamesNoFormat gs := by
    rintro ⟨value, hvalue, hnone⟩
    rcases List.mem_cons.mp hvalue with rfl | hvalue
    · exact hnone .xml (by decide)
    · obtain rfl := List.mem_singleton.mp hvalue
      exact hnone .json (by decide)
  have hgood' : ¬ NamesNoFormat mistaken := by
    rintro ⟨value, hvalue, -⟩
    cases hvalue
  have habout (key : Option Opt) : about key hs = about key gs := by
    rcases key with _ | o
    · rfl
    · cases o <;> rfl
  obtain ⟨-, -, hcomplete, hreordered⟩ := start_wordsOf {} gs
  obtain ⟨-, hmistaken, -⟩ := start_wordsOf {} mistaken
  obtain ⟨-, -, hconversion⟩ := hcomplete hgood rfl
  obtain ⟨selector, hasks, hstart⟩ := hconversion rfl rfl
  obtain rfl : selector = .only .json := by
    have hlast : (valuesOf .format gs).getLast? = some "json" := rfl
    rw [hlast] at hasks
    cases hasks with
    | @encoding _ e he =>
      cases e with
      | json => rfl
      | binary => exact absurd he (by decide)
      | xml => exact absurd he (by decide)
  exact ⟨gs, hs, mistaken, rfl, rfl, rfl, hgood, rfl, habout, hgood', rfl, hstart,
    hreordered hs habout, hmistaken hgood' (by decide)⟩

end PropertyList.Session
