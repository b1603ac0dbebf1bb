/-
  PropertyList.Xml.Prolog

  What stands in front of the root element: comments, processing instructions,
  and perhaps a document type declaration.  It is cut into tokens first, and then
  checked against the grammar.  Entities must not be declared: reading stops
  where the first declaration of one takes effect.
-/
import PropertyList.Xml.Markup

namespace PropertyList.Xml

/-! ## Tokens -/

/-- A token of the prolog.  White space between tokens does not matter. -/
inductive PrologToken where
  | instruction
  | comment
  /-- `<!` and a keyword. -/
  | declaration (keyword : List Char)
  | close
  | openBracket
  | closeBracket
  | openParen
  /-- A closing parenthesis, perhaps with `?`, `*` or `+`. -/
  | closeParen (mark : Option Char)
  | bar
  | comma
  | percent
  /-- A parameter entity reference. -/
  | parameter
  | name (name : List Char)
  /-- A name with `?`, `*` or `+` behind it. -/
  | markedName
  /-- Name characters, of which the first cannot start a name. -/
  | nmtoken
  /-- `#` and a name. -/
  | reserved (name : List Char)
  /-- A text in quotes. -/
  | literal (text : List Char)
  /-- A token that no declaration has. -/
  | other
  deriving DecidableEq

/-- What can follow a token that has no end mark of its own: one of the given characters, white
    space, or the end of the document. -/
def endsToken (atEnd : Bool) (others : List Char) (s : List Char) : Bool :=
  match s with
  | [] => atEnd
  | c :: _ => isSpace c || others.contains c

/-- A mark that says how often something occurs. -/
def isMark (c : Char) : Bool := c = '?' || c = '*' || c = '+'

/-- A token that starts with `<!`, from behind that on. -/
def takeBang? (s : List Char) : Option (PrologToken × List Char) :=
  match s with
  | '-' :: '-' :: s => (dropComment? s).map (.comment, ·)
  | '-' :: _ => none
  | '[' :: s => some (.other, s)
  | s =>
    let (keyword, rest) := s.span fun c => c.isAlpha || c = '_' || c = ':'
    match keyword, rest with
    | _ :: _, c :: _ => if isSpace c then some (.declaration keyword, rest) else none
    | _, _ => none

/-- A token that starts with `%`, from behind that on. -/
def takePercent? (α : Alphabet) (s : List Char) : Option (PrologToken × List Char) :=
  match s with
  | [] => none
  | c :: _ =>
    if isSpace c || c = '%' then some (.percent, s)
    else
      match takeName? α s with
      | some (_, ';' :: rest) => some (.parameter, rest)
      | _ => none

/-- A token that starts with a name character. -/
def takeWord? (α : Alphabet) (atEnd : Bool) (s : List Char) : Option (PrologToken × List Char) :=
  let (word, rest) := s.span α.continues
  let isName := word.head?.any α.starts
  let plain := ['>', ')', ',', '|', '[', '%']
  if word.isEmpty then none
  else if endsToken atEnd plain rest then
    some (if isName then .name word else .nmtoken, rest)
  else
    match rest with
    | c :: rest => if isMark c && isName then some (.markedName, rest) else none
    | [] => none

/-- The token at the front, where `c` is its first character. -/
def takePrologToken? (α : Alphabet) (atEnd : Bool) (c : Char) (s : List Char) :
    Option (PrologToken × List Char) :=
  match c with
  | '"' => quoted
  | '\'' => quoted
  | '<' =>
    match s with
    | '!' :: s => takeBang? s
    | '?' :: s => (dropInstruction? α s).map (.instruction, ·)
    | _ => none
  | '%' => takePercent? α s
  | ',' => some (.comma, s)
  | '[' => some (.openBracket, s)
  | ']' =>
    match s with
    | ']' :: '>' :: s => some (.other, s)
    | s => some (.closeBracket, s)
  | '(' => some (.openParen, s)
  | ')' =>
    match s with
    | m :: rest =>
      if isMark m then some (.closeParen (some m), rest)
      else if endsToken false ['>', ',', '|', ')'] s then some (.closeParen none, s)
      else none
    | [] => none
  | '|' => some (.bar, s)
  | '>' => some (.close, s)
  | '#' =>
    match takeName? α s with
    | some (name, rest) =>
      if endsToken atEnd [')', '>', '%', '|'] rest then some (.reserved name, rest) else none
    | none => none
  | c => takeWord? α atEnd (c :: s)
where
  quoted :=
    match takeValue? (c :: s) with
    | some (text, rest) =>
      if endsToken atEnd ['>', '%', '['] rest then some (.literal text, rest) else none
    | none => none

/-- The tokens of the prolog, up to the root element or to something that is no token.  The
    characters from the root element on come with them. -/
def prologTokens (α : Alphabet) (atEnd : Bool) :
    Nat → List PrologToken → List Char → List PrologToken × Option (List Char)
  | 0, taken, _ => (taken.reverse, none)
  | fuel + 1, taken, s =>
    match s.dropWhile isSpace with
    | [] => (taken.reverse, none)
    | c :: s =>
      if c = '<' && s.head?.any α.starts then (taken.reverse, some (c :: s))
      else
        match takePrologToken? α atEnd c s with
        | some (token, rest) => prologTokens α atEnd fuel (token :: taken) rest
        | none => (taken.reverse, none)

/-! ## Declarations -/

/-- What is known while declarations are read. -/
structure Declarations where
  /-- The document says that it needs no others. -/
  standalone : Bool
  /-- There may be others, in an external part or behind a parameter entity reference. -/
  incomplete : Bool
  /-- A parameter entity reference was seen, behind which declarations do not count unless the
      document stands alone. -/
  interrupted : Bool

namespace Declarations

/-- Whether all declarations are known, so that a reference to another entity is an error. -/
def complete (d : Declarations) : Bool := d.standalone || !d.incomplete

/-- Whether a declaration takes effect here. -/
def counts (d : Declarations) : Bool := d.standalone || !d.interrupted

end Declarations

/-- Why a document cannot be read on. -/
inductive DocumentFault where
  | malformed
  | entityDeclaration
  deriving DecidableEq

/-- What follows a declaration, or why there is no reading on. -/
abbrev Continued := Except DocumentFault (List PrologToken)

/-- The end of a declaration. -/
def closed : List PrologToken → Continued
  | .close :: rest => .ok rest
  | _ => .error .malformed

/-- A character of a public identifier. -/
def isPublicIdChar (c : Char) : Bool :=
  c = ' ' || c = '\n' || c.isAlphanum || "-'()+,./:=?;!*#@$_%".toList.contains c

/-- Whether a text is a public identifier. -/
def isPublicId (text : List Char) : Bool := text.all isPublicIdChar

/-- Whether a text can be the value of an entity: no parameter entities, and every reference is
    well formed. -/
def isEntityValue (α : Alphabet) : Nat → List Char → Bool
  | 0, _ => false
  | _, [] => true
  | fuel + 1, c :: s =>
    if c = '%' then false
    else if c = '&' then
      match takeReference? α s with
      | some (_, rest) => isEntityValue α fuel rest
      | none => false
    else isEntityValue α fuel s

/-- The rest of an entity declaration, from behind the name on.  The declaration takes effect if
    `effective`; that is so as soon as its value, or all of its identifier, is there. -/
def entityBody (α : Alphabet) (d : Declarations) (effective general : Bool) :
    List PrologToken → Continued
  | .literal v :: rest =>
    if effective then .error .entityDeclaration
    else if d.counts && !isEntityValue α (v.length + 1) v then .error .malformed
    else closed rest
  | .name keyword :: rest =>
    let identified : Option (List PrologToken) :=
      match rest with
      | .literal p :: .literal _ :: rest' =>
        if keyword = "PUBLIC".toList && isPublicId p then some rest' else none
      | .literal _ :: rest' => if keyword = "SYSTEM".toList then some rest' else none
      | _ => none
    match identified with
    | none => .error .malformed
    | some (.close :: rest) => if effective then .error .entityDeclaration else .ok rest
    | some (.name ndata :: .name _ :: rest) =>
      if general && ndata = "NDATA".toList then
        if effective then .error .entityDeclaration else closed rest
      else .error .malformed
    | some _ => .error .malformed
  | _ => .error .malformed

/-- An entity declaration, from behind its keyword on.  Declaring a predefined entity again has
    no effect. -/
def entityDeclaration (α : Alphabet) (d : Declarations) : List PrologToken → Continued
  | .percent :: .name _ :: rest => entityBody α d d.counts false rest
  | .name name :: rest => entityBody α d (d.counts && (predefined? name).isNone) true rest
  | _ => .error .malformed

/-- A notation declaration, from behind its keyword on. -/
def notationDeclaration : List PrologToken → Continued
  | .name _ :: .name keyword :: .literal p :: rest =>
    if keyword = "SYSTEM".toList then closed rest
    else if keyword = "PUBLIC".toList && isPublicId p then
      match rest with
      | .literal _ :: rest => closed rest
      | rest => closed rest
    else .error .malformed
  | _ => .error .malformed

/-- The types of attributes that are a word. -/
def attributeTypes : List (List Char) :=
  ["CDATA", "ID", "IDREF", "IDREFS", "ENTITY", "ENTITIES", "NMTOKEN", "NMTOKENS"].map String.toList

/-- Where a list of attribute definitions stands. -/
inductive AttributeState where
  | next
  | type
  /-- In front of a choice of an enumeration; only names can be notations. -/
  | choice (namesOnly : Bool)
  | afterChoice (namesOnly : Bool)
  /-- In front of the parenthesis behind `NOTATION`. -/
  | notations
  | default
  | fixed

/-- The definitions of an attribute list declaration, from behind the element name on. -/
def attributeDefinitions (α : Alphabet) (d : Declarations) :
    AttributeState → List PrologToken → Continued
  | _, [] => .error .malformed
  | state, t :: rest =>
    let value (v : List Char) : Bool :=
      !d.counts || isAttributeValue α d.complete (v.length + 1) v
    match state, t with
    | .next, .close => .ok rest
    | .next, .name _ => attributeDefinitions α d .type rest
    | .type, .name n =>
      if attributeTypes.contains n then attributeDefinitions α d .default rest
      else if n = "NOTATION".toList then attributeDefinitions α d .notations rest
      else .error .malformed
    | .type, .openParen => attributeDefinitions α d (.choice false) rest
    | .notations, .openParen => attributeDefinitions α d (.choice true) rest
    | .choice b, .name _ => attributeDefinitions α d (.afterChoice b) rest
    | .choice false, .nmtoken => attributeDefinitions α d (.afterChoice false) rest
    | .afterChoice b, .bar => attributeDefinitions α d (.choice b) rest
    | .afterChoice _, .closeParen none => attributeDefinitions α d .default rest
    | .default, .reserved n =>
      if n = "IMPLIED".toList || n = "REQUIRED".toList then attributeDefinitions α d .next rest
      else if n = "FIXED".toList then attributeDefinitions α d .fixed rest
      else .error .malformed
    | .default, .literal v =>
      if value v then attributeDefinitions α d .next rest else .error .malformed
    | .fixed, .literal v =>
      if value v then attributeDefinitions α d .next rest else .error .malformed
    | _, _ => .error .malformed

/-- What connects the parts of an open group, once that is known. -/
inductive Connector where
  | sequence
  | choice
  deriving DecidableEq

/-- The open groups of a content model, from in front of a part on.  All parts of a group have
    the same connector between them. -/
def contentGroups (afterPart : Bool) (groups : List (Option Connector)) :
    List PrologToken → Continued
  | [] => .error .malformed
  | t :: rest =>
    let connect (k : Connector) : Option (List (Option Connector)) :=
      match groups with
      | none :: outer => some (some k :: outer)
      | some k' :: outer => if k = k' then some (some k :: outer) else none
      | [] => none
    match afterPart, t with
    | false, .openParen => contentGroups false (none :: groups) rest
    | false, .name _ => contentGroups true groups rest
    | false, .markedName => contentGroups true groups rest
    | true, .closeParen _ =>
      match groups.tail with
      | [] => closed rest
      | outer => contentGroups true outer rest
    | true, .comma =>
      match connect .sequence with
      | some groups => contentGroups false groups rest
      | none => .error .malformed
    | true, .bar =>
      match connect .choice with
      | some groups => contentGroups false groups rest
      | none => .error .malformed
    | _, _ => .error .malformed

/-- The names of mixed content, from behind the first bar on. -/
def mixedNames : List PrologToken → Continued
  | .name _ :: .bar :: rest => mixedNames rest
  | .name _ :: .closeParen (some '*') :: rest => closed rest
  | _ => .error .malformed

/-- An element declaration, from behind its keyword on. -/
def elementDeclaration : List PrologToken → Continued
  | .name _ :: .name content :: rest =>
    if content = "EMPTY".toList || content = "ANY".toList then closed rest else .error .malformed
  | .name _ :: .openParen :: .reserved n :: rest =>
    if n ≠ "PCDATA".toList then .error .malformed else
    match rest with
    | .closeParen none :: rest => closed rest
    | .closeParen (some '*') :: rest => closed rest
    | .bar :: rest => mixedNames rest
    | _ => .error .malformed
  | .name _ :: .openParen :: rest => contentGroups false [none] rest
  | _ => .error .malformed

/-- The declarations between brackets, up to the closing one. -/
def internalSubset (α : Alphabet) :
    Nat → Declarations → List PrologToken → Except DocumentFault (Declarations × List PrologToken)
  | 0, _, _ => .error .malformed
  | fuel + 1, d, tokens =>
    match tokens with
    | .closeBracket :: rest => .ok (d, rest)
    | .instruction :: rest => internalSubset α fuel d rest
    | .comment :: rest => internalSubset α fuel d rest
    | .parameter :: rest =>
      internalSubset α fuel { d with incomplete := true, interrupted := true } rest
    | .declaration keyword :: rest =>
      let continued : Continued :=
        if keyword = "ENTITY".toList then entityDeclaration α d rest
        else if keyword = "ATTLIST".toList then
          match rest with
          | .name _ :: rest => attributeDefinitions α d .next rest
          | _ => .error .malformed
        else if keyword = "ELEMENT".toList then elementDeclaration rest
        else if keyword = "NOTATION".toList then notationDeclaration rest
        else .error .malformed
      match continued with
      | .ok rest => internalSubset α fuel d rest
      | .error e => .error e
    | _ => .error .malformed

/-- The end of a document type declaration, from behind its identifier on. -/
def documentTypeEnd (α : Alphabet) (d : Declarations) :
    List PrologToken → Except DocumentFault (Declarations × List PrologToken)
  | .openBracket :: rest => do
    let (d, rest) ← internalSubset α (rest.length + 1) d rest
    let rest ← closed rest
    .ok (d, rest)
  | rest => do
    let rest ← closed rest
    .ok (d, rest)

/-- A document type declaration, from behind its keyword on. -/
def documentType (α : Alphabet) (d : Declarations) :
    List PrologToken → Except DocumentFault (Declarations × List PrologToken)
  | .name _ :: .name keyword :: .literal p :: rest =>
    let d := { d with incomplete := true }
    if keyword = "SYSTEM".toList then documentTypeEnd α d rest
    else if keyword = "PUBLIC".toList && isPublicId p then
      match rest with
      | .literal _ :: rest => documentTypeEnd α d rest
      | _ => .error .malformed
    else .error .malformed
  | .name _ :: rest => documentTypeEnd α d rest
  | _ => .error .malformed

/-- Comments and processing instructions are skipped. -/
def dropMisc : List PrologToken → List PrologToken
  | .instruction :: rest => dropMisc rest
  | .comment :: rest => dropMisc rest
  | tokens => tokens

/-! ## The prolog -/

/-- Reads the prolog: whether all declarations are known behind it, and the characters from the
    root element on. -/
def readProlog (src : Source) : Except DocumentFault (Bool × List Char) := do
  let atEnd := src.ending ≠ .illegal
  let (tokens, root) := prologTokens src.alphabet atEnd (src.chars.length + 1) [] src.chars
  let d : Declarations := { standalone := src.standalone, incomplete := false, interrupted := false }
  let (d, rest) ←
    match dropMisc tokens with
    | .declaration keyword :: rest =>
      if keyword = "DOCTYPE".toList then documentType src.alphabet d rest
      else .error .malformed
    | rest => .ok (d, rest)
  match dropMisc rest, root with
  | [], some root => .ok (d.complete, root)
  | _, _ => .error .malformed

end PropertyList.Xml
