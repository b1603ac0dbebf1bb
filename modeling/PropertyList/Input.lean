/-
  PropertyList.Input

  Getting the whole payload.  A regular file is as long as it says and is read at
  once; everything else is read byte by byte to its end.  Either way a payload
  has at least `minimumSize` bytes.
-/
import PropertyList.ByteSink
import PropertyList.OsError
import PropertyList.Conversion

namespace PropertyList

/-- The fewest bytes that a payload may have. -/
def minimumSize : Nat := 8

/-- Whether a path selects a standard stream: there is none, or it is the word for that. -/
def isStandard (path : Option String) : Bool :=
  match path with
  | none => true
  | some p => p = "" || p = Settings.standardStream

/-! ## Sources -/

/-- A stream of bytes.  If it fails, then at every read that has a number of bytes, or more, in
    front of it. -/
structure ByteStream where
  bytes : List UInt8
  failure : Option (Nat × OsError) := none

/-- What opening a path for reading gives. -/
inductive Opened where
  | regular (bytes : List UInt8)
  | stream (s : ByteStream)
  | failed (e : OsError)

/-! ## Failures -/

/-- Why there is no payload. -/
inductive InputFailure where
  | tooSmall (size : Nat)
  | cannotGrow
  | readFailed (source : String) (e : OsError)
  | openFailed (path : String) (e : OsError)
  deriving DecidableEq

/-- The message of a failure. -/
def InputFailure.message : InputFailure → String
  | tooSmall _ => "Input file is too small to contain valid plist data."
  | cannotGrow => "Failed to reallocate stdin buffer"
  | readFailed source e =>
    let source := if source = Settings.standardStream then "stdin" else source
    s!"Failed reading from {source}: {e.text}"
  | openFailed path e => s!"Could not open input file '{path}': {e.text}"

/-! ## Reading -/

/-- A result with what was logged on the way. -/
abbrev Logged (α : Type) := List LogRecord × α

/-- A record of the input stage. -/
def inputRecord (message : String) : LogRecord := ⟨"plistutil.core.acquire", message⟩

/-- Appends bytes to a buffer, and records each time that it grows; the last record comes first. -/
def fill (s : ByteSink) (log : List LogRecord) : List UInt8 → List LogRecord × ByteSink
  | [] => (log, s)
  | b :: rest =>
    let grown := (s.append true b.toNat).1
    let log :=
      if s.isFull then inputRecord s!"Grew input buffer to {grown.capacity} bytes" :: log else log
    fill grown log rest

/-- The bytes of a payload from `source`, if there are enough. -/
def sized (source : String) (bytes : List UInt8) : Logged (Except InputFailure Payload) :=
  let size := bytes.length
  if size < minimumSize then
    ([inputRecord s!"Rejecting {source}: {size} bytes is below the {minimumSize} byte minimum"],
      .error (.tooSmall size))
  else
    ([inputRecord s!"Read {size} bytes from {source}"], .ok { bytes, source })

/-- Reads a stream to its end. -/
def readStream (bufferSize : Nat) (stream : ByteStream) (source : String) :
    Logged (Except InputFailure Payload) :=
  let empty : ByteSink := ⟨bufferSize, bufferSize, #[]⟩
  match stream.failure with
  | some (n, e) =>
    if n ≤ stream.bytes.length then
      ((fill empty [] (stream.bytes.take n)).1.reverse, .error (.readFailed source e))
    else toEnd empty
  | none => toEnd empty
where
  toEnd (empty : ByteSink) : Logged (Except InputFailure Payload) :=
    let (log, sink) := fill empty [] stream.bytes
    let (more, result) := sized source sink.value
    (log.reverse ++ more, result)

/-- Reads what was opened under a path. -/
def readOpened (bufferSize : Nat) (path : String) : Opened → Logged (Except InputFailure Payload)
  | .regular bytes => sized path bytes
  | .stream s =>
    let (log, result) := readStream bufferSize s path
    (inputRecord s!"{path} is not a regular file, reading as a stream" :: log, result)
  | .failed e => ([], .error (.openFailed path e))

end PropertyList
