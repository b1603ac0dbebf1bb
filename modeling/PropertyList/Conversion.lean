/-
  PropertyList.Conversion

  Converting a payload: read it, write it in the encoding that was asked for, and
  say how each of the two stages ended.  `Outcome.exit` turns that into the exit
  status of the tool.
-/
import PropertyList.Codec
import PropertyList.Settings

namespace PropertyList

/-! ## Outcomes -/

/-- How a stage of a conversion ended. -/
inductive Stage where
  | notAttempted
  | success
  | parseError
  | formatMismatch
  | unknownFailure
  deriving DecidableEq, Inhabited

namespace Stage

/-- The number of a result in messages. -/
def code : Stage → Int
  | success => 0
  | parseError => -2
  | formatMismatch => -3
  | unknownFailure => -255
  | notAttempted => -255

/-- The name of a result in the log. -/
def logName : Stage → String
  | notAttempted => "NOT_ATTEMPTED"
  | success => "SUCCESS"
  | parseError => "PARSE_ERROR"
  | formatMismatch => "FORMAT_MISMATCH"
  | unknownFailure => "UNKNOWN_FAILURE"

/-- How a stage ends that fails in a given class. -/
def ofFailure : FailureClass → Stage
  | .parse => parseError
  | .format => formatMismatch
  | _ => unknownFailure

end Stage

/-- How the two stages of a conversion ended. -/
structure Outcome where
  input : Stage := .notAttempted
  output : Stage := .notAttempted
  deriving DecidableEq, Inhabited

namespace Outcome

/-- Whether both stages succeeded. -/
def succeeded (o : Outcome) : Bool := o.input = .success && o.output = .success

/-- The exit status, and what is reported with it. -/
def exit (o : Outcome) : Nat × Option String :=
  if o.input ≠ .success then (1, some s!"Could not parse plist data ({o.input.code})")
  else
    match o.output with
    | .success => (0, none)
    | .formatMismatch => (2, some "Input plist data is not compatible with output format.")
    | stage => (1, some s!"Failed to convert plist data ({stage.code})")

theorem exit_eq_zero_iff (o : Outcome) : o.exit.1 = 0 ↔ o.succeeded = true := by
  obtain ⟨i, p⟩ := o
  cases i <;> cases p <;> simp [exit, succeeded]

end Outcome

/-! ## The log -/

/-- A record of the log.  All records are for debugging. -/
structure LogRecord where
  logger : String
  message : String
  deriving DecidableEq

/-- A record as a line. -/
def LogRecord.line (r : LogRecord) : String := r.logger ++ " DEBUG " ++ r.message

/-! ## Conversion -/

/-- A complete input, and the name of where it came from. -/
structure Payload where
  bytes : List UInt8
  source : String := Settings.standardStream

/-- A complete output. -/
structure Rendered where
  bytes : List UInt8
  encoding : Encoding

/-- A conversion: how it went, what came of it, and what was logged. -/
structure Conversion where
  outcome : Outcome
  rendered : Option Rendered
  log : List LogRecord

/-- How a payload is read, what it is written as, and what is logged about the choice.  If nothing
    in particular is asked for, binary lists become XML, and all else is taken for XML and becomes
    binary. -/
def chooseEncodings (bytes : List UInt8) :
    Selector → (List UInt8 → Except ReadFailure Document) × Encoding × List String
  | .only e => (readRecognized, e, [])
  | .auto =>
    if isBinary bytes then
      (Encoding.binary.read, .xml, ["Auto mode: binary input, converting to XML"])
    else
      (Encoding.xml.read, .binary,
        ["Auto mode: non-binary input, parsing as XML and converting to binary"])

/-- The options that the settings give for writing. -/
def Settings.writeOptions (s : Settings) : WriteOptions where
  sortKeys := s.sortKeys
  layout := if s.prettyJson then .pretty else .compact

/-- What is logged about a failure, where `what` failed; failures from outside the codecs have a
    sentence of their own. -/
def failureRecord (what unexpected : String) (c : FailureClass) : String :=
  match c with
  | .parse => s!"{what} failed ({(Stage.ofFailure c).logName})"
  | .format => s!"{what} failed ({(Stage.ofFailure c).logName})"
  | .general => s!"{what} failed ({(Stage.ofFailure c).logName})"
  | _ => unexpected ++ " raised an unexpected error"

/-- Converts a payload. -/
def convert (settings : Settings) (payload : Payload) (selector : Selector) : Conversion :=
  let record (message : String) : LogRecord := ⟨"plistutil.core.dispatcher", message⟩
  let (read, target, chosen) := chooseEncodings payload.bytes selector
  match read payload.bytes with
  | .error f =>
    let messages := chosen ++ [failureRecord "Parse" "Parser" f.failureClass]
    ⟨⟨.ofFailure f.failureClass, .notAttempted⟩, none, messages.map record⟩
  | .ok document =>
    let messages := chosen ++ [s!"Parsed {document.source.name} input from {payload.source}"]
    match target.write settings.writeOptions document with
    | .error f =>
      let failed := failureRecord (target.title ++ " serialization") (target.title ++ " serializer")
        f.failureClass
      ⟨⟨.success, .ofFailure f.failureClass⟩, none, (messages ++ [failed]).map record⟩
    | .ok bytes =>
      let done := s!"Rendered {bytes.length} bytes of {target.title}"
      ⟨⟨.success, .success⟩, some ⟨bytes, target⟩, (messages ++ [done]).map record⟩

end PropertyList
