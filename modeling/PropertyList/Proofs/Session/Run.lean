/-
  PropertyList.Proofs.Session.Run

  What a whole run does to the files and to the standard output.  The part behind the
  input asks for nothing more, prints nothing, and delivers at most once; so files
  and output change only by a delivery, and there is one only if the input was read,
  parsed and written anew.
-/
import PropertyList.Session
import PropertyList.Proofs.CommandLine.Groups
import PropertyList.Proofs.Conversion.Rendered
import PropertyList.Proofs.FileSystem
import PropertyList.Proofs.Input

namespace PropertyList

namespace Session

/-! ## Streams that fail -/

/-- The standard streams: what can be read, and why no output is taken, if none is. -/
structure Streams where
  input : ByteStream
  refusal : Option OsError := none

/-- Carries out a session as `run` does, with standard streams that may fail. -/
def runOn (files : FileSystem) (streams : Streams) : Session → Result
  | .exit status => ⟨.exited status, [], [], files⟩
  | .crash c => ⟨.crashed c, [], [], files⟩
  | .report line next =>
    let r := runOn files streams next
    { r with errors := line :: r.errors }
  | .print text next =>
    let r := runOn files streams next
    { r with output := printedBytes text ++ r.output }
  | .receive next => runOn files { streams with input := { bytes := [] } } (next streams.input)
  | .openInput path next => runOn files streams (next (files.openForReading path))
  | .deliver none bytes next =>
    let r := runOn files streams (next streams.refusal)
    { r with output := if streams.refusal.isSome then r.output else bytes ++ r.output }
  | .deliver (some path) bytes next =>
    match files.write path bytes with
    | .ok files => runOn files streams (next none)
    | .error e => runOn files streams (next (some e))

variable {files : FileSystem} {streams : Streams}

/-- A run is one on streams that do not fail. -/
theorem runOn_eq_run (files : FileSystem) (input : List UInt8) (s : Session) :
    runOn files { input := { bytes := input } } s = run files input s := by
  induction s generalizing files input with
  | exit status => rfl
  | crash c => rfl
  | report line next ih => rw [runOn, run, ih]
  | print text next ih => rw [runOn, run, ih]
  | receive next ih => exact ih _ files []
  | openInput path next ih => exact ih _ files input
  | deliver path bytes next ih =>
    cases path with
    | none =>
      rw [runOn, run]
      simp only [ih, Option.isSome_none, Bool.false_eq_true, if_false]
    | some path =>
      rw [runOn, run]
      cases files.write path bytes <;> exact ih _ _ _

/-! ## The part behind the input -/

/-- A session that asks for no input and prints nothing, and that delivers at most once, to one of
    some destinations. -/
inductive Concludes : (Option String → Prop) → Session → Prop
  | exit {P : Option String → Prop} (status : Nat) : Concludes P (.exit status)
  | crash {P : Option String → Prop} (c : Crash) : Concludes P (.crash c)
  | report {P : Option String → Prop} (line : String) {next : Session} (h : Concludes P next) :
      Concludes P (.report line next)
  | deliver {P : Option String → Prop} {path : Option String} (bytes : List UInt8)
      {next : Option OsError → Session} (hpath : P path)
      (h : ∀ failure, Concludes (fun _ => False) (next failure)) :
      Concludes P (.deliver path bytes next)

variable {P : Option String → Prop} {s : Session}

theorem Concludes.reportLog (logging : Bool) (log : List LogRecord) (h : Concludes P s) :
    Concludes P (reportLog logging log s) := by
  cases logging with
  | false => exact h
  | true =>
    induction log with
    | nil => exact h
    | cons r rest ih => exact .report r.line ih

theorem concludes_finish (o : Outcome) : Concludes P (finish o) := by
  rw [finish]
  split
  · exact .report _ (.exit _)
  · exact .exit _

theorem concludes_deliverOutput {logging : Bool} {path : Option String} {c : Conversion}
    (h : ∀ r, c.rendered = some r → P (destinationOf path)) :
    Concludes P (deliverOutput logging path c) := by
  rw [deliverOutput]
  split
  · exact concludes_finish _
  · next r hr =>
    dsimp only
    split
    · exact .crash _
    · refine .deliver r.bytes (h r hr) fun failure => ?_
      cases failure with
      | none => exact (concludes_finish _).reportLog _ _
      | some e => exact .report _ (.exit _)

theorem concludes_convertInput {settings : Settings} {logging : Bool} {a : CommandLine.Arguments}
    {selector : Selector} {input : Logged (Except InputFailure Payload)}
    (h : ∀ payload r, input.2 = .ok payload → (convert settings payload selector).rendered = some r →
      P (destinationOf a.outfile)) :
    Concludes P (convertInput settings logging a selector input) := by
  rw [convertInput]
  refine Concludes.reportLog _ _ ?_
  split
  · exact .report _ (.exit _)
  · next payload hpayload =>
    refine Concludes.reportLog _ _ (concludes_deliverOutput fun r hr => ?_)
    exact h payload r hpayload hr

/-- Without a destination nothing changes and nothing is put out. -/
theorem Concludes.unchanged (h : Concludes P s) (hP : ∀ path, ¬ P path) :
    (runOn files streams s).files = files ∧ (runOn files streams s).output = [] := by
  induction h with
  | exit status => exact ⟨rfl, rfl⟩
  | crash c => exact ⟨rfl, rfl⟩
  | report line h ih => exact ih hP
  | deliver bytes hpath h ih => exact absurd hpath (hP _)

/-! ## The log -/

/-- The lines of a log. -/
def logLines (logging : Bool) (log : List LogRecord) : List String :=
  if logging then log.map LogRecord.line else []

theorem runOn_reportLog (logging : Bool) (log : List LogRecord) (s : Session) :
    runOn files streams (reportLog logging log s) =
      let r := runOn files streams s
      { r with errors := logLines logging log ++ r.errors } := by
  cases logging with
  | false => rfl
  | true =>
    induction log with
    | nil => rfl
    | cons r rest ih =>
      change runOn files streams (.report r.line (reportLog true rest s)) = _
      rw [runOn, ih]
      rfl

/-! ## The input -/

/-- The bytes of the input that a command line names, if all of them can be read. -/
def inputContent? (files : FileSystem) (input : ByteStream) (path : Option String) :
    Option (List UInt8) :=
  match path with
  | none => input.complete?
  | some p => if isStandard path then input.complete? else (files.openForReading p).content?

/-- What reading that input gives. -/
def received (bufferSize : Nat) (files : FileSystem) (input : ByteStream) (path : Option String) :
    Logged (Except InputFailure Payload) :=
  match path with
  | none => readStream bufferSize input Settings.standardStream
  | some p =>
    if isStandard path then readStream bufferSize input Settings.standardStream
    else readOpened bufferSize p (files.openForReading p)

variable {bufferSize : Nat} {input : ByteStream} {path : Option String} {original : List UInt8}

theorem exists_received_eq_sized (h : inputContent? files input path = some original) :
    ∃ source, (received bufferSize files input path).2 = (sized source original).2 := by
  cases path with
  | none => exact ⟨_, readStream_of_complete h⟩
  | some p =>
    rw [inputContent?] at h
    rw [received]
    split at h
    · next hstandard =>
      rw [if_pos hstandard]
      exact ⟨_, readStream_of_complete h⟩
    · next hstandard =>
      rw [if_neg hstandard]
      exact ⟨_, readOpened_of_content h⟩

theorem exists_received_eq_error (h : inputContent? files input path = none) :
    ∃ f, (received bufferSize files input path).2 = .error f := by
  cases path with
  | none => exact exists_readStream_eq_error h
  | some p =>
    rw [inputContent?] at h
    rw [received]
    split at h
    · next hstandard =>
      rw [if_pos hstandard]
      exact exists_readStream_eq_error h
    · next hstandard =>
      rw [if_neg hstandard]
      exact exists_readOpened_eq_error h

/-- A payload is the content of the input, and has enough bytes. -/
theorem content_of_received {payload : Payload}
    (h : (received bufferSize files input path).2 = .ok payload) :
    inputContent? files input path = some payload.bytes ∧ minimumSize ≤ payload.bytes.length := by
  cases hcontent : inputContent? files input path with
  | none =>
    obtain ⟨f, hf⟩ := exists_received_eq_error hcontent
    rw [hf] at h
    cases h
  | some original =>
    obtain ⟨source, hsource⟩ := exists_received_eq_sized hcontent
    rw [hsource] at h
    rcases Nat.lt_or_ge original.length minimumSize with hsmall | hlarge
    · rw [sized_of_lt hsmall] at h
      cases h
    · rw [sized_of_le hlarge] at h
      obtain rfl := Except.ok.inj h
      exact ⟨rfl, hlarge⟩

/-- Enough content gives a payload. -/
theorem exists_received_eq_ok (h : inputContent? files input path = some original)
    (hsize : minimumSize ≤ original.length) :
    ∃ source, (received bufferSize files input path).2 = .ok ⟨original, source⟩ := by
  obtain ⟨source, hsource⟩ := @exists_received_eq_sized files bufferSize input path original h
  exact ⟨source, hsource.trans (sized_of_le hsize)⟩

/-- A run goes on with what reading gives, and the files are not touched by it. -/
theorem exists_runOn_readInput {settings : Settings} (hzero : path.any hasZero = false)
    (next : Logged (Except InputFailure Payload) → Session) :
    ∃ input', runOn files streams (readInput settings path next) =
      runOn files { streams with input := input' }
        (next (received settings.bufferSize files streams.input path)) := by
  cases path with
  | none => exact ⟨{ bytes := [] }, rfl⟩
  | some p =>
    rw [readInput, received]
    split
    · exact ⟨{ bytes := [] }, rfl⟩
    · rw [if_neg (by simpa using hzero)]
      exact ⟨streams.input, rfl⟩

/-! ## What is delivered -/

/-- Some bytes are read as the selector says and written anew. -/
def Rewrites (settings : Settings) (selector : Selector) (original bytes : List UInt8) : Prop :=
  ∃ d, (chooseEncodings original selector).1 original = .ok d ∧
    (chooseEncodings original selector).2.1.write settings.writeOptions d = .ok bytes

variable {settings : Settings} {selector : Selector} {payload : Payload} {bytes : List UInt8}

theorem rewrites_of_rendered {r : Rendered}
    (h : (convert settings payload selector).rendered = some r) :
    Rewrites settings selector payload.bytes r.bytes := by
  obtain ⟨d, g, hread, hg, hencoding, hwrite⟩ := exists_of_rendered h
  refine ⟨d, hread, ?_⟩
  rw [Encoding.write, hg, ← hencoding]
  exact hwrite

theorem Rewrites.convert_eq (h : Rewrites settings selector payload.bytes bytes) :
    (convert settings payload selector).outcome = ⟨.success, .success⟩ ∧
      ∃ target, (convert settings payload selector).rendered = some ⟨bytes, target⟩ := by
  obtain ⟨d, hread, hwrite⟩ := h
  rw [convert]
  generalize chooseEncodings payload.bytes selector = chosen at hread hwrite
  obtain ⟨read, target, messages⟩ := chosen
  dsimp only at hread hwrite
  simp only [hread, hwrite, true_and]
  exact ⟨target, rfl⟩

/-- A command line is complete and asks for a conversion, its input can be read and is large
    enough, and it is read and written anew.  Then there are bytes for a destination, where `none`
    is the standard output. -/
inductive Produces (settings : Settings) (files : FileSystem) (input : ByteStream)
    (words : List String) : Option String → List UInt8 → Prop
  | intro {a : CommandLine.Arguments} {selector : Selector} {original bytes : List UInt8}
      (hparse : CommandLine.parse words = .ok a) (hhelp : a.help = false)
      (hversion : a.version = false) (hformat : a.format = .value selector)
      (hcontent : inputContent? files input a.infile = some original)
      (hsize : minimumSize ≤ original.length) (hbytes : Rewrites settings selector original bytes) :
      Produces settings files input words (destinationOf a.outfile) bytes

/-- What is printed about the tool itself: the usage text for a mistake in the command line or a
    request for help, or the version. -/
def information (settings : Settings) (words : List String) : Text :=
  match CommandLine.parse words with
  | .error _ => usageText settings
  | .ok a =>
    if a.help then usageText settings
    else if a.version then Text.ofString versionText
    else []

/-! ## Runs -/

variable {words : List String}

/-- Without bytes to deliver, a run that gets as far as the input leaves everything as it was. -/
theorem concludes_of_not_produces {a : CommandLine.Arguments} {logging : Bool}
    (hparse : CommandLine.parse words = .ok a) (hhelp : a.help = false)
    (hversion : a.version = false) (hformat : a.format = .value selector)
    (h : ¬ ∃ destination bytes, Produces settings files input words destination bytes) :
    Concludes (fun _ => False) (convertInput settings logging a selector
      (received settings.bufferSize files input a.infile)) := by
  refine concludes_convertInput fun payload r hpayload hr => h ?_
  obtain ⟨hcontent, hsize⟩ := content_of_received hpayload
  exact ⟨_, _, .intro hparse hhelp hversion hformat hcontent hsize (rewrites_of_rendered hr)⟩

/-- Where nothing is produced, the files are as before, and only information about the tool itself
    is printed. -/
theorem runOn_of_not_produces
    (hzero : ∀ a, CommandLine.parse words = .ok a → a.infile.any hasZero = false)
    (h : ¬ ∃ destination bytes, Produces settings files streams.input words destination bytes) :
    (runOn files streams (start settings words)).files = files ∧
      (runOn files streams (start settings words)).output =
        printedBytes (information settings words) := by
  rw [start, information]
  cases hparse : CommandLine.parse words with
  | error m => exact ⟨rfl, List.append_nil _⟩
  | ok a =>
    dsimp only
    cases hhelp : a.help with
    | true => exact ⟨rfl, List.append_nil _⟩
    | false =>
      cases hversion : a.version with
      | true => exact ⟨rfl, List.append_nil _⟩
      | false =>
        rw [if_neg Bool.false_ne_true, if_neg Bool.false_ne_true, conversion]
        cases hformat : a.format with
        | dropped => exact ⟨rfl, rfl⟩
        | value selector =>
          dsimp only
          -- the input is read in any case, but what is read does not get as far as a delivery
          rw [runOn_reportLog]
          obtain ⟨input', hrun⟩ := @exists_runOn_readInput files streams _ settings (hzero a hparse)
            (convertInput settings (a.debug || settings.logsEverything) a selector)
          rw [hrun]
          exact (concludes_of_not_produces hparse hhelp hversion hformat h).unchanged fun _ => id

/-- How handing over bytes ends: with which status, what the standard output got, and the files. -/
def delivery (files : FileSystem) (refusal : Option OsError) (bytes : List UInt8) :
    Option String → Ended × List UInt8 × FileSystem
  | none => if refusal.isSome then (.exited 1, [], files) else (.exited 0, bytes, files)
  | some path =>
    match files.write path bytes with
    | .ok written => (.exited 0, [], written)
    | .error _ => (.exited 1, [], files)

/-- What a run leaves behind but for its errors. -/
def Result.effects (r : Result) : Ended × List UInt8 × FileSystem := (r.ended, r.output, r.files)

theorem effects_eq_iff {r : Result} {ended : Ended} {output : List UInt8} {written : FileSystem} :
    r.effects = (ended, output, written) ↔
      r.ended = ended ∧ r.output = output ∧ r.files = written := by
  rw [Result.effects, Prod.mk.injEq, Prod.mk.injEq]

theorem effects_deliverOutput {logging : Bool} {c : Conversion} {target : Encoding}
    (houtcome : c.outcome = ⟨.success, .success⟩) (hrendered : c.rendered = some ⟨bytes, target⟩)
    (hzero : (destinationOf path).any hasZero = false) :
    (runOn files streams (deliverOutput logging path c)).effects =
      delivery files streams.refusal bytes (destinationOf path) := by
  rw [deliverOutput, hrendered]
  simp only [hzero, Bool.false_eq_true, if_false, houtcome]
  -- what is logged in the end is no effect
  have hok (files : FileSystem) (log : List LogRecord) :
      (runOn files streams (reportLog logging log (finish ⟨.success, .success⟩))).effects =
        (.exited 0, [], files) := by
    rw [runOn_reportLog]
    rfl
  cases destinationOf path with
  | none =>
    rw [runOn, delivery]
    cases streams.refusal with
    | none =>
      simp only [runOn_reportLog]
      exact congrArg (fun output => (Ended.exited 0, output, files)) (List.append_nil bytes)
    | some e => rfl
  | some p =>
    rw [runOn, delivery]
    cases files.write p bytes with
    | ok written => exact hok written _
    | error e => rfl

/-- Where something is produced, a run ends like the delivery of it. -/
theorem runOn_of_produces
    (hzero : ∀ a, CommandLine.parse words = .ok a →
      a.infile.any hasZero = false ∧ a.outfile.any hasZero = false)
    {destination : Option String} {bytes : List UInt8}
    (h : Produces settings files streams.input words destination bytes) :
    (runOn files streams (start settings words)).effects =
      delivery files streams.refusal bytes destination := by
  obtain ⟨hparse, hhelp, hversion, hformat, hcontent, hsize, hbytes⟩ := h
  next a selector original =>
  obtain ⟨hinzero, houtzero⟩ := hzero a hparse
  obtain ⟨source, hreceived⟩ :=
    @exists_received_eq_ok files settings.bufferSize _ _ _ hcontent hsize
  obtain ⟨input', hrun⟩ := @exists_runOn_readInput files streams _ settings hinzero
    (convertInput settings (a.debug || settings.logsEverything) a selector)
  -- the standard stream is not a path, and a path is checked as it was given
  have hdestination : (destinationOf a.outfile).any hasZero = false := by
    rw [destinationOf]
    split
    · rfl
    · exact houtzero
  obtain ⟨houtcome, target, hrendered⟩ :=
    @Rewrites.convert_eq settings selector ⟨original, source⟩ bytes hbytes
  rw [start, hparse]
  simp only [hhelp, hversion, Bool.false_eq_true, if_false, conversion, hformat, runOn_reportLog,
    hrun, convertInput, hreceived]
  exact effects_deliverOutput houtcome hrendered hdestination

/-- A command line makes changes only if it is complete and asks for a conversion, its input can be
    read, and both stages of the conversion succeed.  Otherwise all files are as they were, and
    nothing is put out but information about the tool itself.  If there are bytes to deliver, they
    reach the standard output, unless it refuses them, or the file under the path that is given,
    which may be the input itself; no other file changes, and the status is zero.  If they cannot be
    delivered, it is one. -/
theorem runOn_start {settings : Settings} {words : List String} {files : FileSystem}
    {streams : Streams} (hfiles : files.IsPlain)
    (hzero : ∀ a, CommandLine.parse words = .ok a →
      a.infile.any hasZero = false ∧ a.outfile.any hasZero = false) :
    let r := runOn files streams (start settings words)
    ((¬ ∃ destination bytes, Produces settings files streams.input words destination bytes) →
      r.files = files ∧ r.output = printedBytes (information settings words)) ∧
    (∀ bytes, Produces settings files streams.input words none bytes →
      r.files = files ∧
      (streams.refusal = none → r.ended = .exited 0 ∧ r.output = bytes) ∧
      (streams.refusal ≠ none → r.ended = .exited 1 ∧ r.output = [])) ∧
    ∀ path bytes, Produces settings files streams.input words (some path) bytes →
      r.output = [] ∧
      (∀ p, files.NamesFile path p → r.ended = .exited 0 ∧
        r.files.entryAt? p = some (.file bytes) ∧ ∀ q, q ≠ p → r.files.entryAt? q = files.entryAt? q) ∧
      ((¬ ∃ p, files.NamesFile path p) → r.ended = .exited 1 ∧ r.files = files) := by
  intro r
  refine ⟨fun h => ?_, fun bytes h => ?_, fun path bytes h => ?_⟩
  · exact runOn_of_not_produces (fun a ha => (hzero a ha).1) h
  · have heffects : r.effects = _ := runOn_of_produces hzero h
    rw [delivery] at heffects
    split at heffects
    · next hrefusal =>
      obtain ⟨hended, houtput, hunchanged⟩ := effects_eq_iff.mp heffects
      refine ⟨hunchanged, fun hnone => ?_, fun _ => ⟨hended, houtput⟩⟩
      rw [hnone] at hrefusal
      cases hrefusal
    · next hrefusal =>
      obtain ⟨hended, houtput, hunchanged⟩ := effects_eq_iff.mp heffects
      refine ⟨hunchanged, fun _ => ⟨hended, houtput⟩, fun hsome => ?_⟩
      exact absurd (Option.isSome_iff_ne_none.mpr hsome) hrefusal
  · have heffects : r.effects = _ := runOn_of_produces hzero h
    rw [delivery] at heffects
    refine ⟨?_, fun p hp => ?_, fun hnone => ?_⟩
    · split at heffects
      · exact (effects_eq_iff.mp heffects).2.1
      · exact (effects_eq_iff.mp heffects).2.1
    · rw [FileSystem.write_of_namesFile hfiles hp] at heffects
      obtain ⟨hended, -, hwritten⟩ := effects_eq_iff.mp heffects
      refine ⟨hended, ?_, fun q hq => ?_⟩
      · rw [hwritten, FileSystem.entryAt?_putFile hp.ne_nil, if_pos rfl]
      · rw [hwritten, FileSystem.entryAt?_putFile hp.ne_nil, if_neg hq]
    · obtain ⟨e, he⟩ := FileSystem.exists_write_eq_error hnone
      rw [he] at heffects
      obtain ⟨hended, -, hunchanged⟩ := effects_eq_iff.mp heffects
      exact ⟨hended, hunchanged⟩

/-- A file can be converted in its own place: the input is read before the output is opened. -/
theorem runOn_start_in_place :
    ∃ (files : FileSystem) (words : List String) (streams : Streams),
      files.entries = [(["tmp", "a"],
        .file [0x7B, 0x22, 0x61, 0x22, 0x20, 0x3A, 0x20, 0x31, 0x32, 0x7D])] ∧
      words = ["-f", "json", "-i", "a", "-o", "a"] ∧ files.IsPlain ∧
      (∀ a, CommandLine.parse words = .ok a →
        a.infile.any hasZero = false ∧ a.outfile.any hasZero = false) ∧
      Produces {} files streams.input words (some "a")
        [0x7B, 0x22, 0x61, 0x22, 0x3A, 0x31, 0x32, 0x7D] ∧
      files.NamesFile "a" ["tmp", "a"] ∧
      (runOn files streams (start {} words)).ended = .exited 0 ∧
      (runOn files streams (start {} words)).files.entryAt? ["tmp", "a"] =
        some (.file [0x7B, 0x22, 0x61, 0x22, 0x3A, 0x31, 0x32, 0x7D]) := by
  let original : List UInt8 := [0x7B, 0x22, 0x61, 0x22, 0x20, 0x3A, 0x20, 0x31, 0x32, 0x7D]
  let files : FileSystem := ⟨[(["tmp", "a"], .file original)], ["tmp"]⟩
  let gs : List CommandLine.Group := [.setting .format false "json" rfl (.inr (by decide)),
    .setting .infile false "a" rfl (.inr (by decide)),
    .setting .outfile false "a" rfl (.inr (by decide))]
  let words : List String := CommandLine.wordsOf gs
  let a : CommandLine.Arguments :=
    { infile := some "a", outfile := some "a", format := .value (.only .json) }
  have hplain : files.IsPlain := FileSystem.isPlain_of_forall fun x hx => by
    obtain rfl := List.mem_singleton.mp hx
    exact .inr ⟨original, rfl⟩
  have hname : Encoding.json.name.toList <+: "json".toList := by decide
  have hgood : ¬ CommandLine.NamesNoFormat gs := CommandLine.not_namesNoFormat rfl hname
  have hparse : CommandLine.parse words = .ok a := CommandLine.parse_of_complete hgood rfl
  have hzero : ∀ a, CommandLine.parse words = .ok a →
      a.infile.any hasZero = false ∧ a.outfile.any hasZero = false := by
    intro b hb
    obtain rfl := Except.ok.inj (hparse.symm.trans hb)
    exact ⟨by decide, by decide⟩
  have htarget : files.target "a" = .ok (.named ["tmp"] "a" false) :=
    FileSystem.target_of_name (by decide) (by decide) (by decide)
  have hopened : files.openForReading "a" = .regular original :=
    FileSystem.openForReading_of_named htarget (by decide)
  have hcontent : inputContent? files { bytes := [] } (some "a") = some original := by
    rw [inputContent?, hopened]
    rfl
  have hrendered : (convert {} ⟨original, Settings.standardStream⟩ (.only .json)).rendered.map
      (·.bytes) = some [0x7B, 0x22, 0x61, 0x22, 0x3A, 0x31, 0x32, 0x7D] := by
    decide +kernel
  obtain ⟨r, hr, hbytes⟩ := Option.map_eq_some_iff.mp hrendered
  have hrewrites := rewrites_of_rendered hr
  rw [hbytes] at hrewrites
  have hproduces : Produces {} files { bytes := [] } words (some "a")
      [0x7B, 0x22, 0x61, 0x22, 0x3A, 0x31, 0x32, 0x7D] :=
    .intro hparse rfl rfl rfl hcontent (by decide) hrewrites
  have hnames : files.NamesFile "a" ["tmp", "a"] :=
    ⟨["tmp"], "a", htarget, by decide, rfl, by decide⟩
  obtain ⟨-, -, hfile⟩ := @runOn_start {} words files { input := { bytes := [] } } hplain hzero
  obtain ⟨-, hwrite, -⟩ := hfile "a" _ hproduces
  obtain ⟨hended, hentry, -⟩ := hwrite _ hnames
  exact ⟨files, words, { input := { bytes := [] } }, rfl, rfl, hplain, hzero, hproduces, hnames,
    hended, hentry⟩

end Session

end PropertyList
