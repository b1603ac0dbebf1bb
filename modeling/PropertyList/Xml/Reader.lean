/-
  PropertyList.Xml.Reader

  From XML to a value.  The events are taken one by one; `Builder` holds the open
  containers, the key that waits for its value, and the text since the last start
  tag.  Elements that mean nothing here are passed over, with their content.
-/
import PropertyList.Value
import PropertyList.Base64
import PropertyList.Number.Decimal
import PropertyList.Xml.Event

namespace PropertyList.Xml

/-! ## Elements -/

/-- The elements of a property list. -/
inductive Element where
  | array
  | dict
  | key
  | string
  | integer
  | real
  | data
  | date
  | true
  | false
  deriving DecidableEq

namespace Element

/-- The name of an element. -/
def name : Element → String
  | array => "array"
  | dict => "dict"
  | key => "key"
  | string => "string"
  | integer => "integer"
  | real => "real"
  | data => "data"
  | date => "date"
  | true => "true"
  | false => "false"

/-- The element with a given name. -/
def named? (n : List Char) : Option Element :=
  [array, dict, key, string, integer, real, data, date, true, false].find? (·.name.toList = n)

theorem named?_name (e : Element) : named? e.name.toList = some e := by cases e <;> decide

end Element

/-! ## Faults -/

/-- What an event does not fit into. -/
inductive Misfit where
  | unexpectedKey
  | unexpectedElement
  | missingValue (key : Text)
  /-- There is no container where one is needed. -/
  | noContainer
  /-- The text of a number, a date or data cannot be read. -/
  | badScalar
  deriving DecidableEq

/-- Why XML cannot be read. -/
inductive ReadFault where
  | malformed
  | unknownCharset
  | entityDeclaration
  /-- The event in a given line does not fit. -/
  | misfit (m : Misfit) (line : Nat)
  /-- There is no value at all. -/
  | noRoot
  deriving DecidableEq

/-- What is said about a misfit, if there is more to say than that the XML is malformed. -/
def Misfit.detail? (line : Nat) : Misfit → Option String
  | unexpectedKey => some s!"unexpected key at line {line}"
  | unexpectedElement => some s!"unexpected element at line {line}"
  | missingValue key => some s!"missing value for key '{key.toString}' at line {line}"
  | noContainer => none
  | badScalar => none

/-- What is said about a fault, if there is more to say than that the XML is malformed. -/
def ReadFault.detail? : ReadFault → Option String
  | entityDeclaration => some "XML entity declarations are not supported in plist files"
  | misfit m line => m.detail? line
  | malformed => none
  | unknownCharset => none
  | noRoot => none

/-! ## Building -/

/-- The content of an open container, the last item first for an array. -/
inductive Content where
  | array (items : List Value)
  | dict (entries : List (Scalar × Value))

/-- An open container, and the key that it will have in the one around it. -/
structure Open where
  content : Content
  key : Option Text

/-- What has been read of a property list. -/
structure Builder where
  /-- The open containers, the innermost first. -/
  stack : List Open
  /-- The key that waits for its value. -/
  key : Option Text
  /-- Characters since the last start tag or value, the last piece first. -/
  chars : List (List Char)
  /-- The last value that stood in no container. -/
  root : Option Value

namespace Builder

/-- Nothing has been read. -/
def start : Builder := ⟨[], none, [], none⟩

/-- The characters read so far. -/
def text (b : Builder) : List Char := b.chars.reverse.flatten

/-- Checks that a value can come here.  In a dictionary it needs a key, and
    elsewhere it must not have one. -/
def accepts (b : Builder) : Except Misfit Unit :=
  match b.key, b.stack with
  | some _, [] => .error .noContainer
  | some _, ⟨.dict _, _⟩ :: _ => .ok ()
  | some _, ⟨.array _, _⟩ :: _ => .error .unexpectedElement
  | none, [] => .ok ()
  | none, ⟨.array _, _⟩ :: _ => .ok ()
  | none, ⟨.dict _, _⟩ :: _ => .error .unexpectedElement

/-- Puts a value into the innermost container, under a key if that is a dictionary. -/
def put (b : Builder) (key : Option Text) (v : Value) : Builder :=
  match b.stack with
  | [] => { b with root := some v }
  | ⟨.array items, k⟩ :: outer => { b with stack := ⟨.array (v :: items), k⟩ :: outer }
  | ⟨.dict entries, k⟩ :: outer =>
    { b with stack := ⟨.dict (Value.setEntry entries (.text (key.getD [])) v), k⟩ :: outer }

/-- Adds a value. -/
def add (b : Builder) (v : Value) : Except Misfit Builder := do
  b.accepts
  .ok ({ b with key := none }.put b.key v)

/-- Opens a container. -/
def opened (b : Builder) (content : Content) : Except Misfit Builder := do
  b.accepts
  .ok { b with stack := ⟨content, b.key⟩ :: b.stack, key := none }

/-- Closes the innermost container. -/
def closed (b : Builder) : Except Misfit Builder :=
  match b.stack with
  | [] => .error .noContainer
  | ⟨content, key⟩ :: outer =>
    let v : Value := match content with
      | .array items => .array items.reverse
      | .dict entries => .dict entries
    .ok ({ b with stack := outer }.put key v)

/-- Takes the text read so far as the next key of a dictionary, unless a key other than the
    empty one waits already. -/
def setKey (b : Builder) : Except Misfit Builder :=
  match b.key, b.stack with
  | some (_ :: _), _ => .error .unexpectedKey
  | _, [] => .error .noContainer
  | _, ⟨.array _, _⟩ :: _ => .error .unexpectedKey
  | _, ⟨.dict _, _⟩ :: _ => .ok { b with key := some (Text.ofChars b.text), chars := [] }

/-- Adds the scalar that the text read so far stands for. -/
def addScalar (b : Builder) (s : Option Scalar) : Except Misfit Builder :=
  match s with
  | some s => { b with chars := [] }.add (.scalar s)
  | none => .error .badScalar

/-- A start tag. -/
def startTag (b : Builder) (e : Option Element) : Except Misfit Builder :=
  let b := { b with chars := [] }
  match e with
  | some .array => b.opened (.array [])
  | some .dict => b.opened (.dict [])
  | _ => .ok b

/-- An end tag.  A dictionary cannot end while a key other than the empty one waits. -/
def endTag (b : Builder) (e : Option Element) : Except Misfit Builder :=
  match e with
  | none => .ok b
  | some .array => b.closed
  | some .dict =>
    match b.key with
    | some (c :: cs) => .error (.missingValue (c :: cs))
    | _ => b.closed
  | some .key => b.setKey
  | some .true => b.add (.bool true)
  | some .false => b.add (.bool false)
  | some .string => b.addScalar (some (.text (Text.ofChars b.text)))
  | some .integer => b.addScalar ((Integer.ofText? (Text.ofChars b.text)).map .int)
  | some .real => b.addScalar ((Binary64.ofText? (Text.ofChars b.text)).map .real)
  | some .data => b.addScalar ((Base64.decode? b.text).map .data)
  | some .date => b.addScalar ((DateTime.ofChars? b.text).map .date)

/-- Takes an event. -/
def take (b : Builder) : EventKind → Except Misfit Builder
  | .startTag name => b.startTag (Element.named? name)
  | .endTag name => b.endTag (Element.named? name)
  | .text cs => .ok { b with chars := cs :: b.chars }

/-- Takes an event of a document. -/
def step (src : Source) (b : Builder) (e : Event) : Except ReadFault Builder :=
  match b.take e.kind with
  | .ok b => .ok b
  | .error m => .error (.misfit m (src.line e.place))

end Builder

/-- The fault of a document as a fault of the property list in it. -/
def DocumentFault.toReadFault : DocumentFault → ReadFault
  | malformed => .malformed
  | entityDeclaration => .entityDeclaration

/-- The value of a document.  A fault of its structure comes before one of its markup that stands
    further on. -/
def readDocument (src : Source) : Except ReadFault Value := do
  let (events, fault) := Event.ofSource src
  let b ← events.foldlM (fun b e => b.step src e) Builder.start
  match fault, b.root with
  | some f, _ => .error f.toReadFault
  | none, some v => .ok v
  | none, none => .error .noRoot

/-- The value of XML bytes. -/
def read (bytes : List UInt8) : Except ReadFault Value :=
  match Source.read bytes with
  | .ok src => readDocument src
  | .error .malformed => .error .malformed
  | .error .unknownCharset => .error .unknownCharset

end PropertyList.Xml
