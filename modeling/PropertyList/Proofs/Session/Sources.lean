/-
  PropertyList.Proofs.Session.Sources

  Where the input comes from does not show.  Bytes on the standard input, in a file
  and in a pipe are converted alike: the three are read in two ways, but all that goes
  on from there is the bytes, unless the log names the source.
-/
import PropertyList.Proofs.CommandLine
import PropertyList.Proofs.Session.Run

namespace PropertyList.Session

/-! ## The input behind a name -/

section

variable {settings : Settings} {selector : Selector} {bytes : List UInt8} {first second : String}

/-- The name of a payload is for the log alone. -/
theorem convert_source (settings : Settings) (selector : Selector) (bytes : List UInt8)
    (first second : String) :
    (convert settings ⟨bytes, first⟩ selector).outcome =
        (convert settings ⟨bytes, second⟩ selector).outcome ∧
      (convert settings ⟨bytes, first⟩ selector).rendered =
        (convert settings ⟨bytes, second⟩ selector).rendered := by
  simp only [convert]
  generalize chooseEncodings bytes selector = chosen
  obtain ⟨read, target, messages⟩ := chosen
  dsimp only
  cases read bytes with
  | error f => exact ⟨rfl, rfl⟩
  | ok d =>
    dsimp only
    cases target.write settings.writeOptions d <;> exact ⟨rfl, rfl⟩

/-- If nothing is logged, what follows the input depends on its bytes alone. -/
theorem convertInput_sized {a b : CommandLine.Arguments} (hout : a.outfile = b.outfile)
    {x y : Logged (Except InputFailure Payload)} (hx : x.2 = (sized first bytes).2)
    (hy : y.2 = (sized second bytes).2) :
    convertInput settings false a selector x = convertInput settings false b selector y := by
  simp only [convertInput, reportLog, Bool.false_eq_true, if_false, hx, hy]
  rcases Nat.lt_or_ge bytes.length minimumSize with hsmall | hlarge
  · rw [sized_of_lt hsmall, sized_of_lt hsmall]
  · obtain ⟨houtcome, hrendered⟩ := convert_source settings selector bytes first second
    rw [sized_of_le hlarge, sized_of_le hlarge]
    simp only [deliverOutput, hout, houtcome, hrendered]

end

/-! ## Runs that agree -/

/-- The runs that conclude do not depend on what is left of the input. -/
theorem Concludes.run_eq {P : Option String → Prop} {s : Session} (h : Concludes P s)
    (files : FileSystem) (input input' : List UInt8) : run files input s = run files input' s := by
  induction h generalizing files with
  | exit status => rfl
  | crash c => rfl
  | report line h ih => rw [run, run, ih]
  | @deliver P path bytes next hpath h ih =>
    cases path with
    | none => rw [run, run, ih]
    | some path =>
      rw [run, run]
      cases files.write path bytes with
      | ok written => exact ih none written
      | error e => exact ih (some e) files

/-- Two results are equal but for what is at one place. -/
structure Result.AgreesBut (p : Place) (r r' : Result) : Prop where
  ended : r'.ended = r.ended
  output : r'.output = r.output
  errors : r'.errors = r.errors
  files : r.files.AgreesBut p r'.files

variable {p : Place} {fs gs : FileSystem}

/-- Runs that conclude without a delivery to some place do not depend on what is there. -/
theorem Concludes.agreesBut {P : Option String → Prop} {s : Session} (h : Concludes P s)
    (hP : ∀ path, P (some path) → fs.place? path ≠ some p) (hfiles : fs.AgreesBut p gs)
    (input : List UInt8) : (run fs input s).AgreesBut p (run gs input s) := by
  induction h generalizing fs gs with
  | exit status => exact ⟨rfl, rfl, rfl, hfiles⟩
  | crash c => exact ⟨rfl, rfl, rfl, hfiles⟩
  | report line h ih =>
    have hnext := ih hP hfiles
    exact ⟨hnext.ended, hnext.output, congrArg (line :: ·) hnext.errors, hnext.files⟩
  | @deliver P path bytes next hpath h ih =>
    cases path with
    | none =>
      have hnext := ih none (fun _ => False.elim) hfiles
      exact ⟨hnext.ended, congrArg (bytes ++ ·) hnext.output, hnext.errors, hnext.files⟩
    | some path =>
      rw [run, run]
      rcases hfiles.write (hP path hpath) bytes with ⟨e, hfs, hgs⟩ | ⟨fs', gs', hfs, hgs, hwritten⟩
      · rw [hfs, hgs]
        exact ih (some e) (fun _ => False.elim) hfiles
      · rw [hfs, hgs]
        exact ih none (fun _ => False.elim) hwritten

theorem concludes_convertInput_any {settings : Settings} {logging : Bool}
    {a : CommandLine.Arguments} {selector : Selector}
    {input : Logged (Except InputFailure Payload)} :
    Concludes (· = destinationOf a.outfile) (convertInput settings logging a selector input) :=
  concludes_convertInput fun _ _ _ _ => rfl

/-! ## The three sources -/

section

variable {settings : Settings} {words named : List String} {path : String} {bytes : List UInt8}

/-- A file or a pipe under a path is converted like the standard input. -/
theorem run_start_eq {files : FileSystem} (hlog : settings.logsEverything = false)
    (hinfile : ∀ a, CommandLine.parse words = .ok a → a.infile = none)
    (hdebug : ∀ a, CommandLine.parse words = .ok a → a.debug = false)
    (hnamed : CommandLine.parse named =
      (CommandLine.parse words).map fun a => { a with infile := some path })
    (hpath : isStandard (some path) = false) (hzero : hasZero path = false)
    (hcontent : (files.openForReading path).content? = some bytes) (rest : List UInt8) :
    run files rest (start settings named) = run files bytes (start settings words) := by
  rw [start, start, hnamed]
  cases hparse : CommandLine.parse words with
  | error m => rfl
  | ok a =>
    have hnone := hinfile a hparse
    have hoff : (a.debug || settings.logsEverything) = false := by rw [hdebug a hparse, hlog]; rfl
    simp only [Except.map]
    cases a.help with
    | true => rfl
    | false =>
      cases a.version with
      | true => rfl
      | false =>
        simp only [Bool.false_eq_true, if_false, conversion]
        cases a.format with
        | dropped => rfl
        | value selector =>
          dsimp only
          rw [hoff, hnone]
          simp only [reportLog, Bool.false_eq_true, if_false, readInput, hpath, hzero, run]
          -- what is left on the standard input is not asked for behind the first read
          rw [concludes_convertInput_any.run_eq files rest []]
          refine congrArg (run files []) ?_
          exact convertInput_sized rfl (readOpened_of_content hcontent) (readStream_of_complete rfl)

/-- What is at a place makes no difference to a conversion of the standard input that does not put
    its output there. -/
theorem run_start_agreesBut (hlog : settings.logsEverything = false)
    (hinfile : ∀ a, CommandLine.parse words = .ok a → a.infile = none)
    (hdebug : ∀ a, CommandLine.parse words = .ok a → a.debug = false)
    (hout : ∀ a out, CommandLine.parse words = .ok a → a.outfile = some out →
      fs.place? out ≠ some p)
    (hfiles : fs.AgreesBut p gs) :
    (run fs bytes (start settings words)).AgreesBut p (run gs bytes (start settings words)) := by
  rw [start]
  cases hparse : CommandLine.parse words with
  | error m => exact ⟨rfl, rfl, rfl, hfiles⟩
  | ok a =>
    have hnone := hinfile a hparse
    have hoff : (a.debug || settings.logsEverything) = false := by rw [hdebug a hparse, hlog]; rfl
    dsimp only
    cases a.help with
    | true => exact ⟨rfl, rfl, rfl, hfiles⟩
    | false =>
      cases a.version with
      | true => exact ⟨rfl, rfl, rfl, hfiles⟩
      | false =>
        simp only [Bool.false_eq_true, if_false, conversion]
        cases a.format with
        | dropped => exact ⟨rfl, rfl, rfl, hfiles⟩
        | value selector =>
          dsimp only
          rw [hoff, hnone]
          simp only [reportLog, Bool.false_eq_true, if_false, readInput, run]
          -- only the delivery looks at files, and it does so at another place
          refine concludes_convertInput_any.agreesBut (fun path hpath => ?_) hfiles []
          rw [destinationOf] at hpath
          split at hpath
          · cases hpath
          · exact hout a path hparse hpath.symm

end

/-- Bytes on the standard input are converted like the same bytes in a file that is named on the
    command line, and like bytes from a pipe in the place of that file: with the same status, the
    same output and errors, and the same changes to the files, unless the pipe is the output itself.
    The size of the buffer makes no difference, and neither do the other options, if they do not
    turn the log on and name no input. -/
theorem run_start_source {settings : Settings} {before given after : List String} {path : String}
    {bytes : List UInt8} {files : FileSystem} (hlog : settings.logsEverything = false)
    (hinfile : CommandLine.Lacks .infile (before ++ after))
    (hdebug : CommandLine.Lacks .debug (before ++ after))
    (hbefore : (CommandLine.parse before).isOk = true)
    (hgiven : CommandLine.NamesInput path given) (hpath : isStandard (some path) = false)
    (hzero : hasZero path = false) (hfile : files.openForReading path = .regular bytes)
    (rest : List UInt8) :
    let standard := run files bytes (start settings (before ++ after))
    run files rest (start settings (before ++ given ++ after)) = standard ∧
    ∀ (p : Place) (pipes : FileSystem), files.place? path = some p → files.AgreesBut p pipes →
      pipes.entryAt? p = some (.pipe bytes) →
      (∀ a out, CommandLine.parse (before ++ after) = .ok a → a.outfile = some out →
        files.place? out ≠ some p) →
      standard.AgreesBut p (run pipes rest (start settings (before ++ given ++ after))) := by
  have hnone := fun a => @CommandLine.infile_eq_none _ a hinfile
  have hquiet := fun a => @CommandLine.debug_eq_false _ a hdebug
  have hnamed := CommandLine.parse_namesInput hbefore hgiven hinfile
  refine ⟨?_, fun p pipes hplace hfiles hpipe hout => ?_⟩
  · refine run_start_eq hlog hnone hquiet hnamed hpath hzero ?_ rest
    rw [hfile]
    rfl
  · have hopened := hfiles.openForReading_pipe hfile hplace hpipe
    have hcontent : (pipes.openForReading path).content? = some bytes := by rw [hopened]; rfl
    rw [run_start_eq hlog hnone hquiet hnamed hpath hzero hcontent rest]
    exact run_start_agreesBut hlog hnone hquiet hout hfiles

/-- Ten bytes of JSON on the standard input, in the file `a` and in a pipe in its place. -/
theorem run_start_source_three :
    ∃ (bytes : List UInt8) (files pipes : FileSystem), bytes.length = 10 ∧
      files = ⟨[(["tmp", "a"], .file bytes)], ["tmp"]⟩ ∧
      pipes = ⟨[(["tmp", "a"], .pipe bytes)], ["tmp"]⟩ ∧ files.AgreesBut ["tmp", "a"] pipes ∧
      run files [] (start {} ["-f", "json", "-i", "a", "-o", "b"]) =
        run files bytes (start {} ["-f", "json", "-o", "b"]) ∧
      (run files bytes (start {} ["-f", "json", "-o", "b"])).AgreesBut ["tmp", "a"]
        (run pipes [] (start {} ["-f", "json", "-i", "a", "-o", "b"])) := by
  let bytes : List UInt8 := [0x7B, 0x22, 0x61, 0x22, 0x20, 0x3A, 0x20, 0x31, 0x32, 0x7D]
  let files : FileSystem := ⟨[(["tmp", "a"], .file bytes)], ["tmp"]⟩
  let pipes : FileSystem := ⟨[(["tmp", "a"], .pipe bytes)], ["tmp"]⟩
  have hfiles : files.AgreesBut ["tmp", "a"] pipes := by
    refine ⟨rfl, fun q hq => ?_, ⟨.file bytes, rfl, by decide⟩, ⟨.pipe bytes, rfl, by decide⟩⟩
    simp [FileSystem.entryAt?, files, pipes, List.lookup_cons, beq_false_of_ne hq]
  have hwords : CommandLine.classifyAll ["-f", "json", "-o", "b"] =
      [.option .format false none, .plain "json", .option .outfile false none, .plain "b"] := rfl
  have hinfile : CommandLine.Lacks .infile ["-f", "json", "-o", "b"] := by
    rw [CommandLine.Lacks, hwords]
    decide
  have hdebug : CommandLine.Lacks .debug ["-f", "json", "-o", "b"] := by
    rw [CommandLine.Lacks, hwords]
    decide
  let front : List CommandLine.Group := [.setting .format false "json" rfl (.inr (by decide))]
  let gs : List CommandLine.Group := [.setting .format false "json" rfl (.inr (by decide)),
    .setting .outfile false "b" rfl (.inr (by decide))]
  have hname : Encoding.json.name.toList <+: "json".toList := by decide
  have hfront : ¬ CommandLine.NamesNoFormat front := CommandLine.not_namesNoFormat rfl hname
  have hgood : ¬ CommandLine.NamesNoFormat gs := CommandLine.not_namesNoFormat rfl hname
  have hbefore : (CommandLine.parse ["-f", "json"]).isOk = true :=
    congrArg Except.isOk (CommandLine.parse_of_complete hfront rfl)
  have hparse : CommandLine.parse ["-f", "json", "-o", "b"] =
      .ok { outfile := some "b", format := .value (.only .json) } :=
    CommandLine.parse_of_complete hgood rfl
  have htarget : files.target "a" = .ok (.named ["tmp"] "a" false) :=
    FileSystem.target_of_name (by decide) (by decide) (by decide)
  have hopened : files.openForReading "a" = .regular bytes :=
    FileSystem.openForReading_of_named htarget (by decide)
  have hplace : files.place? "a" = some ["tmp", "a"] :=
    FileSystem.place?_of_name (by decide) (by decide) (by decide)
  have hout : files.place? "b" = some ["tmp", "b"] :=
    FileSystem.place?_of_name (by decide) (by decide) (by decide)
  obtain ⟨hfile, hpipe⟩ := @run_start_source {} ["-f", "json"] ["-i", "a"] ["-o", "b"] "a" bytes files
    (by decide) hinfile hdebug hbefore (.short rfl) (by decide) (by decide) hopened []
  refine ⟨bytes, files, pipes, rfl, rfl, rfl, hfiles, hfile, ?_⟩
  refine hpipe ["tmp", "a"] pipes hplace hfiles rfl fun a out ha hsome => ?_
  obtain rfl := Except.ok.inj (hparse.symm.trans ha)
  obtain rfl := Option.some.inj hsome
  rw [hout]
  decide

end PropertyList.Session
