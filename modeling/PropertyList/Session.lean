/-
  PropertyList.Session

  A run of the tool: which lines it reports, what it prints, where its input comes
  from and where its output goes.  A session is a value that asks for these
  effects one after the other; `Session.run` carries them out on a model of the
  files, and the program itself on the real ones.
-/
import PropertyList.CommandLine
import PropertyList.FileSystem
import PropertyList.Output

namespace PropertyList

/-- The ways in which a run can break off without a report. -/
inductive Crash where
  /-- The format was given as the mark that ends the options. -/
  | droppedFormat
  /-- A path holds the character with the number zero. -/
  | zeroInPath
  deriving DecidableEq

/-- What a run does next. -/
inductive Session where
  | exit (status : Nat)
  | crash (c : Crash)
  /-- A line on the standard error stream. -/
  | report (line : String) (next : Session)
  /-- Text on the standard output stream. -/
  | print (text : Text) (next : Session)
  /-- The standard input stream. -/
  | receive (next : ByteStream → Session)
  /-- A file, or what else is under a path. -/
  | openInput (path : String) (next : Opened → Session)
  /-- Bytes for a path, or for the standard output stream; what comes back is why they could not be
      written. -/
  | deliver (path : Option String) (bytes : List UInt8) (next : Option OsError → Session)

namespace Session

/-! ## Texts -/

/-- The version of the tool. -/
def versionText : String := "plistutil 2.3.0\n"

/-- The usage text, with the addresses of the settings. -/
def usageText (s : Settings) : Text :=
  Text.ofString
    ("Usage: plistutil [OPTIONS] [-i FILE] [-o FILE]\n" ++
    "\n" ++
    "Convert a plist FILE between binary, XML, and JSON format.\n" ++
    "If -f is omitted, XML plist data will be converted to binary and vice-versa.\n" ++
    "To convert to/from JSON the output format needs to be specified.\n" ++
    "\n" ++
    "OPTIONS:\n" ++
    "  -i, --infile FILE    Optional FILE to convert from or stdin if - or not used\n" ++
    "  -o, --outfile FILE   Optional FILE to convert to or stdout if - or not used\n" ++
    "  -f, --format FORMAT  Force output format, regardless of input type\n" ++
    "                       FORMAT is one of xml, bin, or json\n" ++
    "                       If omitted XML will be converted to binary,\n" ++
    "                       and binary to XML.\n" ++
    "  -d, --debug          Enable extended debug output\n" ++
    "  -v, --version        Print version information\n" ++
    "\n" ++
    "Homepage:    <") ++
  s.homepage ++ Text.ofString ">\nBug Reports: <" ++ s.bugReports ++ Text.ofString ">\n"

/-- A path as it is logged: `standard` stands for none. -/
def shownPath (path : Option String) (standard : String) : String :=
  match path with
  | none => standard
  | some p => if p = "" then standard else p

/-! ## The run -/

/-- Reports an error. -/
def reportError (message : String) (next : Session) : Session :=
  .report ("ERROR: " ++ message) next

/-- Reports log records, if logging is on. -/
def reportLog (logging : Bool) (log : List LogRecord) (next : Session) : Session :=
  if logging then log.foldr (fun r next => .report r.line next) next else next

/-- The end of a run whose conversion had an outcome. -/
def finish (o : Outcome) : Session :=
  match o.exit with
  | (status, some message) => reportError message (.exit status)
  | (status, none) => .exit status

/-- Whether a path cannot be passed to the system. -/
def hasZero (path : String) : Bool := path.toList.contains '\x00'

/-- Hands over the output of a conversion. -/
def deliverOutput (logging : Bool) (path : Option String) (c : Conversion) : Session :=
  match c.rendered with
  | none => finish c.outcome
  | some r =>
    let destination := destinationOf path
    if destination.any hasZero then .crash .zeroInPath
    else
      .deliver destination r.bytes fun failure =>
        match failure with
        | some e => reportError (OutputFailure.message ⟨destination, e⟩) (.exit 1)
        | none =>
          reportLog logging [outputRecord r.bytes.length destination] (finish c.outcome)

/-- Converts what was read, or reports why nothing was. -/
def convertInput (settings : Settings) (logging : Bool) (a : CommandLine.Arguments)
    (selector : Selector) (input : Logged (Except InputFailure Payload)) : Session :=
  reportLog logging input.1 <|
    match input.2 with
    | .error f => reportError f.message (.exit 1)
    | .ok payload =>
      let c := convert settings payload selector
      reportLog logging c.log (deliverOutput logging a.outfile c)

/-- Reads the input and goes on with it. -/
def readInput (settings : Settings) (path : Option String)
    (next : Logged (Except InputFailure Payload) → Session) : Session :=
  match path with
  | none => .receive fun s => next (readStream settings.bufferSize s Settings.standardStream)
  | some p =>
    if isStandard path then
      .receive fun s => next (readStream settings.bufferSize s Settings.standardStream)
    else if hasZero p then .crash .zeroInPath
    else .openInput p fun o => next (readOpened settings.bufferSize p o)

/-- A run with arguments that ask for a conversion. -/
def conversion (settings : Settings) (a : CommandLine.Arguments) : Session :=
  match a.format with
  | .dropped => .crash .droppedFormat
  | .value selector =>
    let logging := a.debug || settings.logsEverything
    let input := shownPath a.infile "stdin"
    let output := shownPath a.outfile "stdout"
    let opening : LogRecord :=
      ⟨"plistutil.cli", s!"Input: {input}, output: {output}, format: {selector.name}"⟩
    reportLog logging [opening]
      (readInput settings a.infile (convertInput settings logging a selector))

/-- A run with a given command line.  A mistake in it shows the usage, like a request for help
    does; help comes before the version, and either before a conversion. -/
def start (settings : Settings) (words : List String) : Session :=
  match CommandLine.parse words with
  | .error m => reportError m.message (.print (usageText settings) (.exit 0))
  | .ok a =>
    if a.help then .print (usageText settings) (.exit 0)
    else if a.version then .print (Text.ofString versionText) (.exit 0)
    else conversion settings a

/-! ## Carrying out a session -/

/-- How a run ended. -/
inductive Ended where
  | exited (status : Nat)
  | crashed (c : Crash)
  deriving DecidableEq

/-- What a run left behind. -/
structure Result where
  ended : Ended
  output : List UInt8
  errors : List String
  files : FileSystem

/-- The bytes of printed text; a surrogate, which has none, is left out. -/
def printedBytes (t : Text) : List UInt8 := Utf8.encodeChars (t.filterMap CodePoint.char?)

/-- Carries out a session on a model of the files, with given bytes as the standard input. -/
def run (files : FileSystem) (input : List UInt8) : Session → Result
  | .exit status => ⟨.exited status, [], [], files⟩
  | .crash c => ⟨.crashed c, [], [], files⟩
  | .report line next =>
    let r := run files input next
    { r with errors := line :: r.errors }
  | .print text next =>
    let r := run files input next
    { r with output := printedBytes text ++ r.output }
  | .receive next => run files [] (next { bytes := input })
  | .openInput path next => run files input (next (files.openForReading path))
  | .deliver none bytes next =>
    let r := run files input (next none)
    { r with output := bytes ++ r.output }
  | .deliver (some path) bytes next =>
    match files.write path bytes with
    | .ok files => run files input (next none)
    | .error e => run files input (next (some e))

end Session

end PropertyList
