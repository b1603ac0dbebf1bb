/-
  PropertyList.Json.Reader

  From JSON text to a value.  The lexemes are taken one by one; `State` says
  which containers are open and what may come next.  A key that occurs again
  keeps its first place and takes the last value.
-/
import PropertyList.Value
import PropertyList.Json.Lexeme
import PropertyList.Text.Utf8
import PropertyList.Text.Utf32
import PropertyList.Text.Reading

namespace PropertyList.Json

/-! ## Faults -/

/-- What JSON text lacks, or has too much of. -/
inductive Mistake where
  | noValue
  | noKey
  | noColon
  | noComma
  | extraData
  | unterminatedText
  | controlCharacter
  | escape
  | unicodeEscape
  deriving DecidableEq

/-- The words for a mistake. -/
def Mistake.message : Mistake → String
  | noValue => "Expecting value"
  | noKey => "Expecting property name enclosed in double quotes"
  | noColon => "Expecting ':' delimiter"
  | noComma => "Expecting ',' delimiter"
  | extraData => "Extra data"
  | unterminatedText => "Unterminated string starting at"
  | controlCharacter => "Invalid control character at"
  | escape => "Invalid \\escape"
  | unicodeEscape => "Invalid \\uXXXX escape"

/-- A place in a text: line and column from one, and the number of code points before it. -/
structure Position where
  line : Nat
  column : Nat
  offset : Nat
  deriving DecidableEq

/-- Where the end part `rest` of a text starts. -/
def position (text rest : Text) : Position :=
  let offset := text.length - rest.length
  let before := text.take offset
  { line := before.count (.scalar '\n') + 1
    column := (before.reverse.takeWhile (· ≠ .scalar '\n')).length + 1
    offset }

/-- Why JSON cannot be read. -/
inductive ReadFault where
  /-- The bytes are no text. -/
  | encoding
  | mistake (m : Mistake) (place : Position)
  | constant (name : String)
  | longInteger
  | tooDeep
  deriving DecidableEq

/-- What is said about a fault, if there is more to say than that the JSON is malformed. -/
def ReadFault.detail? : ReadFault → Option String
  | mistake m p =>
    some s!"{m.message}: line {p.line} column {p.column} (char {p.offset})"
  | constant name => some (name ++ " is not a valid JSON number")
  | encoding => none
  | longInteger => none
  | tooDeep => none

/-! ## The machine -/

/-- An open container, its latest item or entry first for an array; `key` is the last key of an
    object. -/
inductive Frame where
  | array (items : List Value)
  | object (entries : List (Scalar × Value)) (key : Text)

/-- What may come next. -/
inductive Expected where
  | value
  | valueOrEnd
  | key
  | keyOrEnd
  | colon
  | commaOrEnd
  | nothing (root : Value)

/-- The open containers, the innermost first, and what may come next. -/
structure State where
  stack : List Frame
  expected : Expected

/-- How many containers may be open at once. -/
def depthLimit : Nat := 990

/-- What stops the machine, with the text from there on where that matters. -/
inductive Halt where
  | mistake (m : Mistake) (rest : Text)
  | constant (name : String)
  | longInteger
  | tooDeep

/-- Puts a complete value where it belongs. -/
def State.deliver (stack : List Frame) (v : Value) : State :=
  match stack with
  | [] => ⟨[], .nothing v⟩
  | .array items :: rest => ⟨.array (v :: items) :: rest, .commaOrEnd⟩
  | .object entries key :: rest =>
    ⟨.object (Value.setEntry entries (.text key) v) key :: rest, .commaOrEnd⟩

/-- Opens a container. -/
def State.opened (stack : List Frame) (frame : Frame) (expected : Expected) :
    Except Halt State :=
  if stack.length < depthLimit then .ok ⟨frame :: stack, expected⟩ else .error .tooDeep

/-- A fault in a quoted text, where `start` is its opening quote. -/
def TextFault.halt (start : Text) : TextFault → Halt
  | unterminated => .mistake .unterminatedText start
  | controlCharacter rest => .mistake .controlCharacter rest
  | escape rest => .mistake .escape rest
  | unicodeEscape rest => .mistake .unicodeEscape rest

/-- Takes a lexeme where a value is expected. -/
def takeValue (stack : List Frame) (l : Located) : Except Halt State :=
  match l.lexeme with
  | .token .null => .ok (.deliver stack .null)
  | .token (.bool b) => .ok (.deliver stack (.bool b))
  | .token (.int n) => .ok (.deliver stack (.int n))
  | .token (.real x) => .ok (.deliver stack (.real x))
  | .token (.text t) => .ok (.deliver stack (.text t))
  | .token .beginArray => State.opened stack (.array []) .valueOrEnd
  | .token .beginObject => State.opened stack (.object [] []) .keyOrEnd
  | .token _ => .error (.mistake .noValue l.start)
  | .constant name => .error (.constant name)
  | .longInteger => .error .longInteger
  | .broken fault => .error (fault.halt l.start)
  | .stray => .error (.mistake .noValue l.start)

/-- Takes a lexeme where a key is expected. -/
def takeKey (stack : List Frame) (l : Located) : Except Halt State :=
  match l.lexeme, stack with
  | .token (.text t), .object entries _ :: rest => .ok ⟨.object entries t :: rest, .colon⟩
  | .broken fault, _ => .error (fault.halt l.start)
  | _, _ => .error (.mistake .noKey l.start)

/-- Takes a lexeme. -/
def State.step (st : State) (l : Located) : Except Halt State :=
  match st.expected with
  | .nothing _ => .error (.mistake .extraData l.start)
  | .value => takeValue st.stack l
  -- behind an opening bracket the container can end at once
  | .valueOrEnd =>
    match l.lexeme, st.stack with
    | .token .endArray, .array items :: rest => .ok (.deliver rest (.array items.reverse))
    | _, _ => takeValue st.stack l
  | .key => takeKey st.stack l
  | .keyOrEnd =>
    match l.lexeme, st.stack with
    | .token .endObject, .object entries _ :: rest => .ok (.deliver rest (.dict entries))
    | _, _ => takeKey st.stack l
  | .colon =>
    if l.lexeme = .token .colon then .ok ⟨st.stack, .value⟩
    else .error (.mistake .noColon l.start)
  | .commaOrEnd =>
    match l.lexeme, st.stack with
    | .token .comma, .array _ :: _ => .ok ⟨st.stack, .value⟩
    | .token .comma, .object _ _ :: _ => .ok ⟨st.stack, .key⟩
    | .token .endArray, .array items :: rest => .ok (.deliver rest (.array items.reverse))
    | .token .endObject, .object entries _ :: rest => .ok (.deliver rest (.dict entries))
    | _, _ => .error (.mistake .noComma l.start)

/-- What is wrong if the text ends here. -/
def State.finish (st : State) : Except Halt Value :=
  match st.expected with
  | .nothing v => .ok v
  | .value => .error (.mistake .noValue [])
  | .valueOrEnd => .error (.mistake .noValue [])
  | .key => .error (.mistake .noKey [])
  | .keyOrEnd => .error (.mistake .noKey [])
  | .colon => .error (.mistake .noColon [])
  | .commaOrEnd => .error (.mistake .noComma [])

/-- Takes lexemes to their end. -/
def State.run (st : State) : List Located → Except Halt Value
  | [] => st.finish
  | l :: ls =>
    match st.step l with
    | .ok st => st.run ls
    | .error e => .error e

/-- The value of a text. -/
def readText (text : Text) : Except ReadFault Value :=
  match State.run ⟨[], .value⟩ (lexemes (text.length + 1) [] text) with
  | .ok v => .ok v
  | .error (.mistake m rest) => .error (.mistake m (position text rest))
  | .error (.constant name) => .error (.constant name)
  | .error .longInteger => .error .longInteger
  | .error .tooDeep => .error .tooDeep

/-! ## From bytes to text -/

/-- The byte order marks, each with how the bytes behind it are read.  One mark of UTF-16 is the
    start of a longer one. -/
def marks : List (List UInt8 × (List UInt8 → Option Text)) := [
  ([0x00, 0x00, 0xFE, 0xFF], decode? (Utf32.next? .big)),
  ([0xFF, 0xFE, 0x00, 0x00], decode? (Utf32.next? .little)),
  ([0xFE, 0xFF], decode? (Utf16.next? .big)),
  ([0xFF, 0xFE], decode? (Utf16.next? .little)),
  ([0xEF, 0xBB, 0xBF], decode? Utf8.next?)]

/-- The text of bytes without a mark: UTF-8, if there are no zeros among the first of them. -/
def decodeUnmarked? (bytes : List UInt8) : Option Text :=
  match bytes with
  | a :: b :: c :: d :: _ =>
    if a = 0 then decode? (if b = 0 then Utf32.next? .big else Utf16.next? .big) bytes
    else if b = 0 then
      decode? (if c = 0 ∧ d = 0 then Utf32.next? .little else Utf16.next? .little) bytes
    else decode? Utf8.next? bytes
  | [a, b] =>
    if a = 0 then decode? (Utf16.next? .big) bytes
    else if b = 0 then decode? (Utf16.next? .little) bytes
    else decode? Utf8.next? bytes
  | _ => decode? Utf8.next? bytes

/-- The text of bytes.  A byte order mark says how they are to be read; without one, zeros among
    the first four bytes do. -/
def decodeText? (bytes : List UInt8) : Option Text :=
  match marks.find? fun m => m.1.isPrefixOf bytes with
  | some (mark, decode) => decode (bytes.drop mark.length)
  | none => decodeUnmarked? bytes

/-- The value of JSON bytes. -/
def read (bytes : List UInt8) : Except ReadFault Value :=
  match decodeText? bytes with
  | none => .error .encoding
  | some text => readText text

end PropertyList.Json
