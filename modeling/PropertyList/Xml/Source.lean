/-
  PropertyList.Xml.Source

  From bytes to the characters of an XML document.  The first bytes and the XML
  declaration say how the bytes are to be read.  What comes out is the run of
  legal characters behind the declaration, with each line break as one line
  feed, and how that run ends.
-/
import PropertyList.Text.Utf8
import PropertyList.Text.Utf16
import PropertyList.Text.Reading
import PropertyList.Xml.Charset
import PropertyList.Xml.Name

namespace PropertyList.Xml

/-! ## Codings -/

/-- The ways to read bytes as characters. -/
inductive Coding where
  | utf8
  | utf16 (order : ByteOrder)
  | latin1
  | ascii
  | table (t : CharTable)

/-- A character that may occur in a document: a tab, a line break, or anything from the space on
    except the last two code points of the basic plane. -/
def isLegal (c : Char) : Bool :=
  let n := c.toNat
  n = 9 || n = 10 || n = 13 || (0x20 ≤ n && n ≠ 0xFFFE && n ≠ 0xFFFF)

/-- The character at the front of UTF-16 bytes.  The first half of a surrogate pair is joined
    with whatever unit follows. -/
def nextUtf16? (order : ByteOrder) : List UInt8 → Option (Char × List UInt8)
  | a :: b :: s =>
    let u := Utf16.unit order a b
    if Utf16.isHigh u then
      match s with
      | c :: d :: t =>
        let n := Utf16.joined u (Utf16.unit order c d)
        (CodePoint.ofNat? n).bind fun p => p.char?.map (·, t)
      | _ => none
    else
      (CodePoint.ofNat? u).bind fun p => p.char?.map (·, s)
  | _ => none

/-- A reader of characters that are one byte each. -/
def nextByte? (char? : UInt8 → Option Char) : List UInt8 → Option (Char × List UInt8)
  | [] => none
  | b :: s => (char? b).map (·, s)

namespace Coding

/-- The character at the front of some bytes. -/
def next? : Coding → List UInt8 → Option (Char × List UInt8)
  | utf8, s => (Utf8.next? s).bind fun (p, t) => p.char?.map (·, t)
  | utf16 order, s => nextUtf16? order s
  | latin1, s => nextByte? (fun b => some (Char.ofNat b.toNat)) s
  | ascii, s => nextByte? (fun b => if b.toNat < 128 then some (Char.ofNat b.toNat) else none) s
  | table t, s => nextByte? t.char? s

/-- The legal character at the front of some bytes, a line break of any form as a line feed. -/
def nextLegal? (k : Coding) (s : List UInt8) : Option (Char × List UInt8) :=
  match k.next? s with
  | none => none
  | some (c, t) =>
    if !isLegal c then none
    else if c = '\r' then
      match k.next? t with
      | some ('\n', u) => some ('\n', u)
      | _ => some ('\n', t)
    else some (c, t)

/-- The bytes of one unit. -/
def width : Coding → Nat
  | utf16 _ => 2
  | _ => 1

/-- The alphabet of the names in a document. -/
def alphabet : Coding → Alphabet
  | utf16 _ => .wide
  | latin1 => .wide
  | _ => .standard

end Coding

/-- The coding that the first bytes show, and the bytes behind a byte order mark.  A document
    starts with an ASCII character, so a zero among the first two bytes shows UTF-16. -/
def detectCoding : List UInt8 → Coding × List UInt8
  | 0xEF :: 0xBB :: 0xBF :: s => (.utf8, s)
  | a :: b :: s =>
    if a = 0xFE ∧ b = 0xFF then (.utf16 .big, s)
    else if a = 0xFF ∧ b = 0xFE then (.utf16 .little, s)
    else if a = 0 then (.utf16 .big, a :: b :: s)
    else if b = 0 then (.utf16 .little, a :: b :: s)
    else (.utf8, a :: b :: s)
  | s => (.utf8, s)

/-! ## The XML declaration -/

/-- White space in markup. -/
def isSpace (c : Char) : Bool := c = ' ' || c = '\n' || c = '\t' || c = '\r'

/-- What an XML declaration says. -/
structure Declaration where
  encoding : Option (List Char)
  standalone : Bool
  deriving DecidableEq

/-- A character of the value of an item. -/
def isValueChar (c : Char) : Bool := c.isAlphanum || c = '.' || c = '-' || c = '_'

/-- The next item of a declaration, if there is one, and what follows it.  An item is white
    space, a name, an equals sign and a value in quotes. -/
def takeItem? (s : List Char) : Option (Option (List Char × List Char) × List Char) :=
  match s with
  | [] => some (none, [])
  | c :: _ =>
    if !isSpace c then none else
    match s.dropWhile isSpace with
    | [] => some (none, [])
    | s =>
      let (name, s) := s.span fun c => !(c = '=' || isSpace c || 0x80 ≤ c.toNat)
      match name, s.dropWhile isSpace with
      | _ :: _, '=' :: s =>
        match s.dropWhile isSpace with
        | quote :: s =>
          if quote = '"' ∨ quote = '\'' then
            let (value, s) := s.span isValueChar
            match s with
            | c :: s => if c = quote then some (some (name, value), s) else none
            | [] => none
          else none
        | [] => none
      | _, _ => none

/-- The item `standalone`, which is the last one, and white space. -/
def takeStandalone? (name value rest : List Char) : Option Bool :=
  if name = "standalone".toList ∧ rest.all isSpace then
    if value = "yes".toList then some true
    else if value = "no".toList then some false
    else none
  else none

/-- The declaration between `<?xml` and `?>`: a version, then perhaps an encoding, then perhaps
    whether the document stands alone. -/
def parseDeclaration? (s : List Char) : Option Declaration := do
  let (item, s) ← takeItem? s
  let (name, _) ← item
  if name ≠ "version".toList then none else
  let (item, s) ← takeItem? s
  match item with
  | none => some ⟨none, false⟩
  | some (name, value) =>
    if name = "encoding".toList then
      if !(value.head?.any Char.isAlpha) then none else
      let (item, s) ← takeItem? s
      match item with
      | none => some ⟨some value, false⟩
      | some (name, v) => (takeStandalone? name v s).map (⟨some value, ·⟩)
    else (takeStandalone? name value s).map (⟨none, ·⟩)

/-- `n` characters, and the bytes behind them. -/
def takeChars? (k : Coding) : Nat → List UInt8 → Option (List Char × List UInt8)
  | 0, s => some ([], s)
  | n + 1, s => do
    let (c, s) ← k.nextLegal? s
    let (cs, s) ← takeChars? k n s
    some (c :: cs, s)

/-- Characters up to `?>`, and the bytes behind it. -/
def takeInstruction? (k : Coding) : Nat → List Char → List UInt8 → Option (List Char × List UInt8)
  | 0, _, _ => none
  | fuel + 1, taken, s =>
    match k.nextLegal? s with
    | none => none
    | some (c, s) =>
      if c = '>' ∧ taken.head? = some '?' then some (taken.tail.reverse, s)
      else takeInstruction? k fuel (c :: taken) s

/-- Whether bytes start with an XML declaration. -/
def startsDeclaration (k : Coding) (s : List UInt8) : Bool :=
  match takeChars? k 6 s with
  | some (cs, _) =>
    cs.take 5 = "<?xml".toList && cs.getLast?.any fun c => isSpace c || c = '?'
  | none => false

/-! ## The document -/

/-- How the legal characters of a document end: with the bytes, in the middle of a unit, or at
    something that is no legal character. -/
inductive Ending where
  | complete
  | torn
  | illegal
  deriving DecidableEq, Inhabited

/-- The characters of a document from behind its declaration on. -/
structure Source where
  chars : List Char
  ending : Ending
  alphabet : Alphabet
  standalone : Bool
  /-- The line of the first character. -/
  firstLine : Nat

/-- Why bytes are no characters of a document. -/
inductive SourceFault where
  | malformed
  | unknownCharset
  deriving DecidableEq

/-- The coding that a declaration names, where the declaration itself was read as `k`.  The
    units of the two must have the same width, and the same order of bytes. -/
def namedCoding (k : Coding) (name : List Char) : Except SourceFault Coding :=
  let upper := String.ofList (name.map Char.toUpper)
  let narrow (other : Coding) : Except SourceFault Coding :=
    if k.width = 1 then .ok other else .error .malformed
  let wide (order : ByteOrder) : Except SourceFault Coding :=
    match k with
    | .utf16 o => if o = order then .ok k else .error .malformed
    | _ => .error .malformed
  if upper = "UTF-8" then narrow .utf8
  else if upper = "ISO-8859-1" then narrow .latin1
  else if upper = "US-ASCII" then narrow .ascii
  else if upper = "UTF-16" then (if k.width = 2 then .ok k else .error .malformed)
  else if upper = "UTF-16BE" then wide .big
  else if upper = "UTF-16LE" then wide .little
  else
    match Charset.named? name with
    | none => .error .unknownCharset
    | some set =>
      match set.table with
      | some t => .ok (.table t)
      | none => .error .malformed

namespace Source

/-- The document in bytes that are read in a known way. -/
def ofBytes (k : Coding) (standalone : Bool) (firstLine : Nat) (bytes : List UInt8) : Source :=
  let (chars, rest) := readAll k.nextLegal? bytes.length [] bytes
  { chars
    ending :=
      match rest with
      | [] => .complete
      | [_] => if k.width = 2 then .torn else .illegal
      | _ => .illegal
    alphabet := k.alphabet
    standalone
    firstLine }

/-- The document in some bytes. -/
def read (bytes : List UInt8) : Except SourceFault Source := do
  let (k, bytes) := detectCoding bytes
  if startsDeclaration k bytes then
    match (takeChars? k 5 bytes).bind fun (_, s) => takeInstruction? k s.length [] s with
    | none => .error .malformed
    | some (content, rest) =>
      match parseDeclaration? content with
      | none => .error .malformed
      | some d =>
        let k ←
          match d.encoding with
          | some name => namedCoding k name
          | none => .ok k
        .ok (ofBytes k d.standalone (1 + content.count '\n') rest)
  else
    .ok (ofBytes k false 1 bytes)

/-- The line in which an end part of the characters starts. -/
def line (src : Source) (rest : List Char) : Nat :=
  src.firstLine + src.chars.count '\n' - rest.count '\n'

end Source

end PropertyList.Xml
