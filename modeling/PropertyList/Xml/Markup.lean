/-
  PropertyList.Xml.Markup

  The small parts of XML markup: names, references, comments, processing
  instructions, attributes and tags.  Each `take…?` function gets the characters
  from its part on and gives what follows it; `none` means that the part is
  malformed or does not end.
-/
import PropertyList.Number.Numeral
import PropertyList.Xml.Source

namespace PropertyList.Xml

/-! ## Names -/

/-- A name, and what follows it. -/
def takeName? (α : Alphabet) : List Char → Option (List Char × List Char)
  | [] => none
  | c :: s =>
    if α.starts c then
      let (cs, rest) := s.span α.continues
      some (c :: cs, rest)
    else none

/-! ## References -/

/-- A reference to a character or to an entity. -/
inductive Reference where
  | char (c : Char)
  | entity (name : List Char)
  deriving DecidableEq

/-- The character with a given number, if a document may refer to it. -/
def referredChar? (n : Nat) : Option Char :=
  ((CodePoint.ofNat? n).bind CodePoint.char?).filter isLegal

/-- Digits of a base, a semicolon, and what follows it. -/
def takeCharNumber? (base : Nat) (digit? : Char → Option Nat) (s : List Char) :
    Option (Reference × List Char) := do
  let (ds, rest) := s.span fun c => (digit? c).isSome
  match ds, rest with
  | _ :: _, ';' :: rest =>
    let c ← referredChar? (ofDigits base (ds.filterMap digit?))
    some (.char c, rest)
  | _, _ => none

/-- A reference from behind its ampersand, and what follows it. -/
def takeReference? (α : Alphabet) (s : List Char) : Option (Reference × List Char) :=
  match s with
  | '#' :: 'x' :: s => takeCharNumber? 16 hexadecimalDigit? s
  | '#' :: s => takeCharNumber? 10 decimalDigit? s
  | s =>
    match takeName? α s with
    | some (name, ';' :: rest) => some (.entity name, rest)
    | _ => none

/-- The entities that need no declaration. -/
def predefined? (name : List Char) : Option Char :=
  if name = "lt".toList then some '<'
  else if name = "gt".toList then some '>'
  else if name = "amp".toList then some '&'
  else if name = "quot".toList then some '"'
  else if name = "apos".toList then some '\''
  else none

/-- The text that a reference stands for.  No entity but the predefined ones is ever declared;
    any other is an error where declarations are known to be complete, and else stands for
    nothing. -/
def Reference.text? (complete : Bool) : Reference → Option (List Char)
  | char c => some [c]
  | entity name =>
    match predefined? name with
    | some c => some [c]
    | none => if complete then none else some []

/-! ## Comments, instructions and sections -/

/-- What follows a comment, from behind `<!--` on.  Two hyphens can only end it. -/
def dropComment? : List Char → Option (List Char)
  | '-' :: '-' :: '>' :: rest => some rest
  | '-' :: '-' :: _ => none
  | _ :: s => dropComment? s
  | [] => none

/-- What follows the next `?>`. -/
def dropThroughInstructionEnd? : List Char → Option (List Char)
  | '?' :: '>' :: rest => some rest
  | _ :: s => dropThroughInstructionEnd? s
  | [] => none

/-- What follows a processing instruction, from behind `<?` on.  Its name cannot be `xml`, since
    a declaration stands only at the very start. -/
def dropInstruction? (α : Alphabet) (s : List Char) : Option (List Char) :=
  match takeName? α s with
  | none => none
  | some (name, rest) =>
    if name.map Char.toLower = "xml".toList then none
    else
      match rest with
      | '?' :: '>' :: rest => some rest
      | c :: rest => if isSpace c then dropThroughInstructionEnd? rest else none
      | [] => none

/-- The characters of a section up to `]]>`, after those in `taken`, and what follows it. -/
def takeSection? (taken : List Char) : List Char → Option (List Char × List Char)
  | ']' :: ']' :: '>' :: rest => some (taken.reverse, rest)
  | c :: s => takeSection? (c :: taken) s
  | [] => none

/-- The characters up to the next tag or reference, after those in `taken`, and what follows
    them.  The end mark of a section cannot stand among them. -/
def takeCharacters? (taken : List Char) : List Char → Option (List Char × List Char)
  | ']' :: ']' :: '>' :: _ => none
  | c :: s =>
    if c = '<' ∨ c = '&' then some (taken.reverse, c :: s)
    else takeCharacters? (c :: taken) s
  | [] => some (taken.reverse, [])

/-! ## Attributes -/

/-- Whether a text can be the value of an attribute: no `<`, and every reference is in order. -/
def isAttributeValue (α : Alphabet) (complete : Bool) : Nat → List Char → Bool
  | 0, _ => false
  | _, [] => true
  | fuel + 1, c :: s =>
    if c = '<' then false
    else if c = '&' then
      match takeReference? α s with
      | some (r, rest) => (r.text? complete).isSome && isAttributeValue α complete fuel rest
      | none => false
    else isAttributeValue α complete fuel s

/-- A value between quotes, and what follows the closing one. -/
def takeValue? (s : List Char) : Option (List Char × List Char) :=
  match s with
  | [] => none
  | quote :: s =>
    if quote = '"' ∨ quote = '\'' then
      match s.span (· ≠ quote) with
      | (value, _ :: rest) => some (value, rest)
      | (_, []) => none
    else none

/-- An attribute: its name and value, and what follows it. -/
def takeAttribute? (α : Alphabet) (complete : Bool) (s : List Char) :
    Option (List Char × List Char) := do
  let (name, s) ← takeName? α s
  match s.dropWhile isSpace with
  | '=' :: s =>
    let (value, rest) ← takeValue? (s.dropWhile isSpace)
    if isAttributeValue α complete (value.length + 1) value then some (name, rest) else none
  | _ => none

/-- How a start tag ends. -/
inductive TagEnd where
  | element
  | emptyElement
  deriving DecidableEq

/-- Attributes, each behind white space, up to the end of the tag, and what follows it.  No name
    occurs twice. -/
def dropAttributes? (α : Alphabet) (complete : Bool) :
    Nat → List (List Char) → List Char → Option (TagEnd × List Char)
  | 0, _, _ => none
  | fuel + 1, names, s =>
    match s with
    | '>' :: rest => some (.element, rest)
    | '/' :: '>' :: rest => some (.emptyElement, rest)
    | c :: s =>
      if isSpace c then
        match s.dropWhile isSpace with
        | '>' :: rest => some (.element, rest)
        | '/' :: '>' :: rest => some (.emptyElement, rest)
        | s =>
          match takeAttribute? α complete s with
          | some (name, rest) =>
            if names.contains name then none
            else dropAttributes? α complete fuel (name :: names) rest
          | none => none
      else none
    | [] => none

/-! ## Tags -/

/-- A start tag from behind its `<` on: its name, how it ends, and what follows it.  `fuel` is more
    than the number of its attributes. -/
def takeStartTag? (α : Alphabet) (complete : Bool) (fuel : Nat) (s : List Char) :
    Option (List Char × TagEnd × List Char) := do
  let (name, s) ← takeName? α s
  let (tagEnd, rest) ← dropAttributes? α complete fuel [] s
  some (name, tagEnd, rest)

/-- An end tag from behind its `</` on: its name, and what follows it. -/
def takeEndTag? (α : Alphabet) (s : List Char) : Option (List Char × List Char) := do
  let (name, s) ← takeName? α s
  match s.dropWhile isSpace with
  | '>' :: rest => some (name, rest)
  | _ => none

end PropertyList.Xml
