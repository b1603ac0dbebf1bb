/-
  PropertyList.Output

  Handing over the rendered bytes, to a file or to the standard stream.
-/
import PropertyList.Input

namespace PropertyList

/-- Why the output could not be handed over: `none` stands for the standard stream. -/
structure OutputFailure where
  path : Option String
  error : OsError
  deriving DecidableEq

/-- The message of a failure. -/
def OutputFailure.message (f : OutputFailure) : String :=
  match f.path with
  | none => s!"Could not write to stdout: {f.error.text}"
  | some path => s!"Could not open output file '{path}': {f.error.text}"

/-- Where output goes: to a path, or to the standard stream. -/
def destinationOf (path : Option String) : Option String :=
  if isStandard path then none else path

/-- What is logged about output that was handed over. -/
def outputRecord (size : Nat) (destination : Option String) : LogRecord :=
  let place := destination.getD "stdout"
  ⟨"plistutil.core.output", s!"Wrote {size} bytes to {place}"⟩

/-- What the standard stream gets, where every write of it fails if `failure` is given.  Nothing
    is written if nothing was rendered. -/
def writeStandard (rendered : Option (List UInt8)) (failure : Option OsError) :
    Except OutputFailure (List UInt8) :=
  match rendered, failure with
  | none, _ => .ok []
  | some _, some e => .error ⟨none, e⟩
  | some bytes, none => .ok bytes

end PropertyList
