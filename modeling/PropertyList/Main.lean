/-
  PropertyList.Main

  The program: a session carried out on the real streams and files.
-/
import PropertyList.Session

namespace PropertyList

/-! ## Failures -/

/-- A failure of the system, in the words of the library. -/
def OsError.reported : IO.Error → OsError
  | .alreadyExists _ n t => .system n.toNat t
  | .otherError n t => .system n.toNat t
  | .resourceBusy n t => .system n.toNat t
  | .resourceVanished n t => .system n.toNat t
  | .unsupportedOperation n t => .system n.toNat t
  | .hardwareFault n t => .system n.toNat t
  | .unsatisfiedConstraints n t => .system n.toNat t
  | .illegalOperation n t => .system n.toNat t
  | .protocolError n t => .system n.toNat t
  | .timeExpired n t => .system n.toNat t
  | .interrupted _ n t => .system n.toNat t
  | .noFileOrDirectory _ n t => .system n.toNat t
  | .invalidArgument _ n t => .system n.toNat t
  | .permissionDenied _ n t => .system n.toNat t
  | .resourceExhausted _ n t => .system n.toNat t
  | .inappropriateType _ n t => .system n.toNat t
  | .noSuchThing _ n t => .system n.toNat t
  | .unexpectedEof => .described "unexpected end of file"
  | .userError t => .described t

/-- What a run says that breaks off. -/
def Crash.message : Crash → String
  | droppedFormat => "no format is given"
  | zeroInPath => "embedded null byte"

/-! ## Effects -/

/-- Reads a stream to its end, or to the first failure. -/
partial def drain (input : IO.FS.Stream) (taken : ByteArray) : IO ByteStream := do
  match ← (input.read 4096).toBaseIO with
  | .error e =>
    return { bytes := taken.toList, failure := some (taken.size, .reported e) }
  | .ok chunk =>
    if chunk.isEmpty then return { bytes := taken.toList }
    drain input (taken ++ chunk)

/-- Opens a path for reading, and reads all of it. -/
def openPath (path : String) : IO Opened := do
  let attempt : IO Opened := do
    let file ← IO.FS.Handle.mk path .read
    let bytes ← file.readBinToEnd
    let info ← (System.mkFilePath [path]).metadata
    match info.type with
    | .file => return .regular bytes.toList
    | .dir => return .failed .isDirectory
    | _ => return .stream { bytes := bytes.toList }
  match ← attempt.toBaseIO with
  | .ok opened => return opened
  | .error e => return .failed (.reported e)

/-- Writes bytes to the standard output stream. -/
def writeOut (bytes : List UInt8) : IO Unit := do
  let output ← IO.getStdout
  output.write ⟨bytes.toArray⟩
  output.flush

/-- Writes a file. -/
def writeFile (path : String) (bytes : List UInt8) : IO Unit := do
  let file ← IO.FS.Handle.mk path .write
  file.write ⟨bytes.toArray⟩
  file.flush

/-- The failure of an action, if it fails. -/
def failureOf (action : IO Unit) : IO (Option OsError) := do
  match ← action.toBaseIO with
  | .ok _ => return none
  | .error e => return some (.reported e)

/-- Carries out a session, and gives its exit status. -/
def Session.perform : Session → IO UInt32
  | .exit status => return status.toUInt32
  | .crash c => do
    IO.eprintln c.message
    return 1
  | .report line next => do
    IO.eprintln line
    next.perform
  | .print text next => do
    writeOut (printedBytes text)
    next.perform
  | .receive next => do
    let stream ← drain (← IO.getStdin) .empty
    (next stream).perform
  | .openInput path next => do
    let opened ← openPath path
    (next opened).perform
  | .deliver none bytes next => do
    let failure ← failureOf (writeOut bytes)
    (next failure).perform
  | .deliver (some path) bytes next => do
    let failure ← failureOf (writeFile path bytes)
    (next failure).perform

/-- The settings of the process. -/
def processSettings : IO Settings := do
  let found ← Settings.variableNames.filterMapM fun name => do
    return (← IO.getEnv name).map fun value => (name, Text.ofString value)
  return .ofEnvironment found

end PropertyList

/-- Runs the program on the words of its command line. -/
def main (words : List String) : IO UInt32 := do
  let settings ← PropertyList.processSettings
  (PropertyList.Session.start settings words).perform
