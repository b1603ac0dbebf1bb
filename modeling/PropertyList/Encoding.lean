/-
  PropertyList.Encoding

  The three encodings of property lists, how one of them is asked for, and how
  the first bytes of a payload show which one it has.
-/
import PropertyList.Binary.Layout

namespace PropertyList

/-- An encoding of property lists. -/
inductive Encoding where
  | binary
  | xml
  | json
  deriving DecidableEq, Inhabited

namespace Encoding

/-- The name of an encoding, which is also how a request for it starts. -/
def name : Encoding → String
  | binary => "bin"
  | xml => "xml"
  | json => "json"

/-- The name of an encoding in messages. -/
def title : Encoding → String
  | binary => "Binary"
  | xml => "XML"
  | json => "JSON"

/-- All encodings. -/
def all : List Encoding := [binary, xml, json]

end Encoding

/-- What is asked for: a given encoding, or the one that the input suggests. -/
inductive Selector where
  | auto
  | only (e : Encoding)
  deriving DecidableEq, Inhabited

namespace Selector

/-- The name of a selector. -/
def name : Selector → String
  | auto => "auto"
  | only e => e.name

/-- The encoding that a word asks for: the one with whose name it starts. -/
def ofWord? (word : List Char) : Option Selector :=
  (Encoding.all.find? fun e => e.name.toList.isPrefixOf word).map only

end Selector

/-! ## Recognition -/

/-- Whether a payload has the header of binary lists. -/
def isBinary (bytes : List UInt8) : Bool := Binary.hasHeader bytes

/-- The white space that may stand in front of text: space, tab, carriage return, line feed. -/
def isLeadingBlank (b : UInt8) : Bool := b = 0x20 || b = 0x09 || b = 0x0D || b = 0x0A

/-- The bytes behind the leading white space. -/
def dropLeadingBlanks (bytes : List UInt8) : List UInt8 := bytes.dropWhile isLeadingBlank

/-- The bytes behind a UTF-8 byte order mark and white space after it, if there is a mark. -/
def dropMark : List UInt8 → List UInt8
  | 0xEF :: 0xBB :: 0xBF :: rest => dropLeadingBlanks rest
  | bytes => bytes

/-- Whether a payload starts with a UTF-16 byte order mark. -/
def hasWideMark : List UInt8 → Bool
  | 0xFF :: 0xFE :: _ => true
  | 0xFE :: 0xFF :: _ => true
  | _ => false

/-- The encoding that a first byte shows, if it is `<`, an opening brace or an opening bracket. -/
def ofFirstByte? : List UInt8 → Option Encoding
  | 0x3C :: _ => some .xml
  | 0x7B :: _ => some .json
  | 0x5B :: _ => some .json
  | _ => none

/-- The encoding that the first bytes of a payload show. -/
def recognize? (bytes : List UInt8) : Option Encoding :=
  if isBinary bytes then some .binary
  else if hasWideMark bytes then some .xml
  else ofFirstByte? (dropMark (dropLeadingBlanks bytes))

end PropertyList
