/-
  PropertyList.Xml.Writer

  From a value to XML.  Each tag, scalar and line of data stands on a line of its
  own, indented by one tab a level; text is escaped, and its line breaks become
  line feeds.
-/
import PropertyList.Value
import PropertyList.Base64
import PropertyList.Number.Decimal
import PropertyList.Text.Utf8

namespace PropertyList.Xml

/-! ## Text -/

/-- The control characters that a document cannot hold. -/
def isControl (c : CodePoint) : Bool :=
  let n := c.toNat
  n < 0x20 && n ≠ 0x09 && n ≠ 0x0A && n ≠ 0x0D

/-- A character as it stands in text. -/
def escapeChar (c : Char) : List Char :=
  if c = '&' then "&amp;".toList
  else if c = '<' then "&lt;".toList
  else if c = '>' then "&gt;".toList
  else [c]

/-- Line breaks of any form as line feeds; `afterReturn` says that a carriage return stands in
    front. -/
def unifyBreaks (afterReturn : Bool) (taken : List Char) : List Char → List Char
  | [] => taken.reverse
  | c :: s =>
    if c = '\r' then unifyBreaks true ('\n' :: taken) s
    else if c = '\n' && afterReturn then unifyBreaks false taken s
    else unifyBreaks false (c :: taken) s

/-- Text with its line breaks unified and its markup characters escaped. -/
def escapeText (cs : List Char) : List Char := (unifyBreaks false [] cs).flatMap escapeChar

/-! ## Faults -/

/-- Why a value has no XML form. -/
inductive WriteFault where
  | unorderedKeys
  | keyNotText
  | controlCharacter
  | surrogate
  | outOfRange (n : Int)
  | null
  | uid
  | tooDeep
  deriving DecidableEq

/-- What is said about a fault, if there is more to say than that XML cannot express the value. -/
def WriteFault.detail? : WriteFault → Option String
  | keyNotText => some "keys must be strings"
  | controlCharacter => some "strings can't contain control characters; use bytes instead"
  | outOfRange n => (Integer.decimal? n).map String.ofList
  | null => some "unsupported type: <class 'NoneType'>"
  | uid => some "unsupported type: <class 'plistlib.UID'>"
  | unorderedKeys => none
  | surrogate => none
  | tooDeep => none

/-! ## Lines -/

/-- A line: how far it is indented, and what it holds. -/
structure Line where
  level : Nat
  chars : List Char

/-- How many levels of containers can be written. -/
def writeDepth : Nat := 490

/-- An element with text, in one line. -/
def textLine (level : Nat) (name : String) (chars : List Char) : Line :=
  ⟨level, '<' :: name.toList ++ '>' :: chars ++ '<' :: '/' :: name.toList ++ ['>']⟩

/-- A start tag. -/
def startLine (level : Nat) (name : String) : Line := ⟨level, '<' :: name.toList ++ ['>']⟩

/-- An end tag. -/
def endLine (level : Nat) (name : String) : Line := ⟨level, '<' :: '/' :: name.toList ++ ['>']⟩

/-- The tag of an empty element. -/
def emptyLine (level : Nat) (name : String) : Line := ⟨level, '<' :: name.toList ++ ['/', '>']⟩

/-- An element with a text that may hold anything. -/
def stringLine (level : Nat) (name : String) (t : Text) : Except WriteFault Line :=
  if t.any isControl then .error .controlCharacter else
  match Text.chars? t with
  | some cs => .ok (textLine level name (escapeText cs))
  | none => .error .surrogate

/-- The width of the lines of data: what is left of 76 columns, where a tab takes eight, but at
    least sixteen. -/
def dataWidth (level : Nat) : Nat := max 16 (76 - 8 * level)

/-- The lines of a scalar. -/
def scalarLines (level : Nat) : Scalar → Except WriteFault (List Line)
  | .null => .error .null
  | .bool true => .ok [emptyLine level "true"]
  | .bool false => .ok [emptyLine level "false"]
  | .int n =>
    if -0x8000000000000000 ≤ n ∧ n < 0x10000000000000000 then
      .ok [textLine level "integer" (Integer.decimal n)]
    else .error (.outOfRange n)
  | .real x => .ok [textLine level "real" x.text]
  | .text t => (stringLine level "string" t).map ([·])
  | .data bytes =>
    let lines := (Base64.encodeLines (dataWidth level) bytes).map fun cs => (⟨level, cs⟩ : Line)
    .ok (startLine level "data" :: (lines ++ [endLine level "data"]))
  | .date t => .ok [textLine level "date" t.toChars]
  | .uid _ => .error .uid

/-- The lines of a container, whose content is given if it has any. -/
def containerLines (level : Nat) (name : String) (content : List Line) : List Line :=
  if content.isEmpty then [emptyLine level name]
  else startLine level name :: (content ++ [endLine level name])

/-- Entries in the order in which they are written. -/
def ordered {α : Type} (sortKeys : Bool) (entries : List (Scalar × α)) :
    Except WriteFault (List (Scalar × α)) :=
  if sortKeys then
    match Scalar.sortByKey? (fun e : Scalar × α => e.1) entries with
    | some es => .ok es
    | none => .error .unorderedKeys
  else .ok entries

mutual

/-- The lines of a value at a level. -/
def lines (sortKeys : Bool) (level : Nat) : Value → Except WriteFault (List Line)
  | .scalar s => scalarLines level s
  | .back _ => .error .tooDeep
  | .array items =>
    if writeDepth ≤ level then .error .tooDeep
    else (itemLines sortKeys level items).map (containerLines level "array")
  | .dict entries =>
    if writeDepth ≤ level then .error .tooDeep
    else do
      let members ← ordered sortKeys (entryLines sortKeys level entries)
      let members ← members.mapM fun (key, value) =>
        match key.text? with
        | none => .error .keyNotText
        | some t => do
          let key ← stringLine (level + 1) "key" t
          let value ← value
          .ok (key :: value)
      .ok (containerLines level "dict" members.flatten)

/-- The lines of the items of an array. -/
def itemLines (sortKeys : Bool) (level : Nat) : List Value → Except WriteFault (List Line)
  | [] => .ok []
  | v :: vs => do
    let first ← lines sortKeys (level + 1) v
    let rest ← itemLines sortKeys level vs
    .ok (first ++ rest)

/-- The keys of a dictionary, each with the lines of its value or why there are none. -/
def entryLines (sortKeys : Bool) (level : Nat) :
    List (Scalar × Value) → List (Scalar × Except WriteFault (List Line))
  | [] => []
  | (k, v) :: es => (k, lines sortKeys (level + 1) v) :: entryLines sortKeys level es

end

/-! ## Documents -/

/-- The XML declaration and the document type declaration. -/
def documentStart : List Char :=
  ("<?xml version=\"1.0\" encoding=\"UTF-8\"?>\n" ++
    "<!DOCTYPE plist PUBLIC \"-//Apple//DTD PLIST 1.0//EN\" " ++
    "\"http://www.apple.com/DTDs/PropertyList-1.0.dtd\">\n").toList

/-- A line with its indentation and its line end. -/
def Line.render (l : Line) : List Char := List.replicate l.level '\t' ++ l.chars ++ ['\n']

/-- The characters of a document. -/
def render (ls : List Line) : List Char :=
  documentStart ++ "<plist version=\"1.0\">\n".toList ++ ls.flatMap Line.render ++
    "</plist>\n".toList

/-- The XML bytes of a value. -/
def write (sortKeys : Bool) (v : Value) : Except WriteFault (List UInt8) := do
  let ls ← lines sortKeys 0 v
  .ok (Utf8.encodeChars (render ls))

end PropertyList.Xml
