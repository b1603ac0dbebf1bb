/-
  PropertyList.Codec

  Reading and writing documents in the three encodings, under one type of
  failure for each direction.  A failure has a class, which decides how a
  conversion ends, and mostly a message.
-/
import PropertyList.Document
import PropertyList.Binary.Reader
import PropertyList.Binary.Writer
import PropertyList.Xml.Reader
import PropertyList.Xml.Writer
import PropertyList.Json.Reader
import PropertyList.Json.Writer

namespace PropertyList

/-! ## Failures -/

/-- The classes of failures. -/
inductive FailureClass where
  /-- The payload has the encoding, but is malformed. -/
  | parse
  /-- The payload does not have the encoding, or the encoding cannot express a value. -/
  | format
  /-- Anything else that reading and writing report. -/
  | general
  /-- A character set that is not known. -/
  | charset
  /-- A text that cannot be encoded. -/
  | encoding
  /-- A number that is too long to be shown. -/
  | number
  deriving DecidableEq

/-- A message: what is wrong, and perhaps why. -/
def withDetail (what : String) : Option String → String
  | some detail => what ++ ": " ++ detail
  | none => what

/-- Why a payload cannot be read. -/
inductive ReadFailure where
  | noHeader
  | unrecognized
  | binary (fault : Binary.ReadFault)
  | xml (fault : Xml.ReadFault)
  | json (fault : Json.ReadFault)
  deriving DecidableEq

namespace ReadFailure

/-- The class of a failure. -/
def failureClass : ReadFailure → FailureClass
  | noHeader => .format
  | unrecognized => .format
  | binary .tooDeep => .general
  | binary .malformed => .parse
  | xml .unknownCharset => .charset
  | xml _ => .parse
  | json .tooDeep => .general
  | json _ => .parse

/-- The message of a failure. -/
def message? : ReadFailure → Option String
  | noHeader => some "Payload does not start with the binary plist header"
  | unrecognized => some "Payload is not a binary, XML or JSON plist"
  | binary .malformed => some "Malformed binary plist: Invalid file"
  | binary .tooDeep => some "Binary plist nests too deeply"
  | xml .unknownCharset => none
  | xml .noRoot => some "XML plist has no root value"
  | xml fault => some (withDetail "Malformed XML plist" fault.detail?)
  | json .tooDeep => some "JSON plist nests too deeply"
  | json fault => some (withDetail "Malformed JSON plist" fault.detail?)

end ReadFailure

/-- Why a document cannot be written. -/
inductive WriteFailure where
  | released
  | binary (fault : Binary.WriteFault)
  | xml (fault : Xml.WriteFault)
  | json (layout : Json.Layout) (fault : Json.WriteFault)
  deriving DecidableEq

namespace WriteFailure

/-- The class of a failure.  An integer is out of range as a matter of the encoding, unless it is
    too long to be shown. -/
def failureClass : WriteFailure → FailureClass
  | released => .general
  | binary (.numbering .tooDeep) => .general
  | binary (.numbering _) => .format
  | binary (.record (.outOfRange n)) => if Integer.isPrintable n then .format else .number
  | binary (.record .surrogate) => .encoding
  | xml .tooDeep => .general
  | xml (.outOfRange n) => if Integer.isPrintable n then .format else .number
  | xml _ => .format
  | json _ .tooDeep => .general
  | json _ _ => .format

/-- What is said about a fault of binary writing, if there is more to say than that a binary list
    cannot express the value. -/
def binaryDetail? : Binary.WriteFault → Option String
  | .numbering .keyNotText => some "keys must be strings"
  | .record (.outOfRange n) => (Integer.decimal? n).map String.ofList
  | _ => none

/-- The message of a failure. -/
def message? (f : WriteFailure) : Option String :=
  match f.failureClass with
  | .general =>
    match f with
    | released => some "Document has already been released"
    | _ => some "Document nests too deeply"
  | .format =>
    match f with
    | released => none
    | binary fault =>
      some (withDetail "Value cannot be stored in a binary plist" (binaryDetail? fault))
    | xml fault => some (withDetail "Value cannot be stored in an XML plist" fault.detail?)
    | json layout fault =>
      some (withDetail "Value cannot be represented in JSON" (fault.detail? layout))
  | _ => none

end WriteFailure

/-! ## Reading -/

/-- Reads a payload that is known to have an encoding. -/
def Encoding.read (e : Encoding) (bytes : List UInt8) : Except ReadFailure Document :=
  let tree (v : Value) : Document := ⟨.only e, some (Graph.ofValue v)⟩
  match e with
  | .binary =>
    if isBinary bytes then
      match Binary.read bytes with
      | .ok g => .ok ⟨.only .binary, some g⟩
      | .error f => .error (.binary f)
    else .error .noHeader
  | .xml =>
    match Xml.read bytes with
    | .ok v => .ok (tree v)
    | .error f => .error (.xml f)
  | .json =>
    match Json.read bytes with
    | .ok v => .ok (tree v)
    | .error f => .error (.json f)

/-- Reads a payload in the encoding that it shows. -/
def readRecognized (bytes : List UInt8) : Except ReadFailure Document :=
  match recognize? bytes with
  | some e => e.read bytes
  | none => .error .unrecognized

/-! ## Writing -/

/-- How documents are written. -/
structure WriteOptions where
  sortKeys : Bool := false
  layout : Json.Layout := .compact

/-- Writes a graph in an encoding. -/
def Encoding.writeGraph (e : Encoding) (options : WriteOptions) (g : Graph) :
    Except WriteFailure (List UInt8) :=
  match e with
  | .binary => (Binary.write g options.sortKeys).mapError .binary
  | .xml => (Xml.write options.sortKeys g.value).mapError .xml
  | .json => (Json.write options.layout options.sortKeys g.value).mapError (.json options.layout)

/-- Writes a document in an encoding. -/
def Encoding.write (e : Encoding) (options : WriteOptions) (d : Document) :
    Except WriteFailure (List UInt8) :=
  match d.graph with
  | none => .error .released
  | some g => e.writeGraph options g

end PropertyList
