/-
  PropertyList.Json.Lexeme

  Cutting JSON text into lexemes.  A lexeme is a token, or something in the
  place of one that only matters if a value is expected there.  Each lexeme keeps
  the text from its own start on, which says where it stands.
-/
import PropertyList.Json.Token
import PropertyList.Text.Utf16

namespace PropertyList.Json

/-! ## Quoted text -/

/-- What is wrong with a quoted text, with the text from the fault on. -/
inductive TextFault where
  | unterminated
  | controlCharacter (rest : Text)
  | escape (rest : Text)
  | unicodeEscape (rest : Text)
  deriving DecidableEq

/-- The character that a backslash and a letter stand for. -/
def simpleEscape? (c : CodePoint) : Option CodePoint :=
  match c with
  | .scalar '"' => some (.scalar '"')
  | .scalar '\\' => some (.scalar '\\')
  | .scalar '/' => some (.scalar '/')
  | .scalar 'b' => some (.scalar '\x08')
  | .scalar 'f' => some (.scalar '\x0C')
  | .scalar 'n' => some (.scalar '\n')
  | .scalar 'r' => some (.scalar '\r')
  | .scalar 't' => some (.scalar '\t')
  | _ => none

/-- The number of four hexadecimal digits that are not the end of the text, and what follows. -/
def takeHex? : Text → Option (Nat × Text)
  | a :: b :: c :: d :: rest@(_ :: _) => do
    let n := (((← a.hexDigit?) * 16 + (← b.hexDigit?)) * 16 + (← c.hexDigit?)) * 16 +
      (← d.hexDigit?)
    some (n, rest)
  | _ => none

/-- A code point by its number. -/
def codePoint (n : Nat) : CodePoint := (CodePoint.ofNat? n).getD (.scalar '\uFFFD')

/-- What `u` and four digits behind a backslash stand for.  A pair of escapes that name the two
    halves of a surrogate pair is one code point. -/
def takeUnicodeEscape (s : Text) : Except TextFault (CodePoint × Text) :=
  match takeHex? s.tail with
  | none => .error (.unicodeEscape s)
  | some (n, rest) =>
    match Utf16.isHigh n, rest with
    | true, .scalar '\\' :: .scalar 'u' :: second@(_ :: _ :: _ :: _ :: _ :: _) =>
      match takeHex? second with
      | none => .error (.unicodeEscape (.scalar 'u' :: second))
      | some (m, rest') =>
        if Utf16.isLow m then .ok (codePoint (Utf16.joined n m), rest')
        else .ok (codePoint n, rest)
    | _, _ => .ok (codePoint n, rest)

/-- The code point at the front of a quoted text, and what follows it. -/
def takeCodePoint : Text → Except TextFault (CodePoint × Text)
  | [] => .error .unterminated
  | c :: s =>
    if c = .scalar '\\' then
      match s with
      | [] => .error .unterminated
      | e :: t =>
        if e = .scalar 'u' then takeUnicodeEscape s
        else
          match simpleEscape? e with
          | some x => .ok (x, t)
          | none => .error (.escape (c :: s))
    else if c.toNat < 0x20 then .error (.controlCharacter (c :: s))
    else .ok (c, s)

/-- A text up to its closing quote, after what is in `taken`, and what follows the quote. -/
def takeQuoted : Nat → Text → Text → Except TextFault (Text × Text)
  | 0, _, _ => .error .unterminated
  | fuel + 1, taken, s =>
    match s with
    | .scalar '"' :: rest => .ok (taken.reverse, rest)
    | s =>
      match takeCodePoint s with
      | .ok (c, rest) => takeQuoted fuel (c :: taken) rest
      | .error e => .error e

/-! ## Numbers -/

/-- An ASCII digit. -/
def isDigit (c : CodePoint) : Bool := 0x30 ≤ c.toNat && c.toNat ≤ 0x39

/-- The digits at the front of a text, and what follows. -/
def takeDigits (s : Text) : Text × Text := s.span isDigit

/-- The digits in front of the point: a lone zero, or digits without leading zero. -/
def takeWhole? : Text → Option (Text × Text)
  | [] => none
  | c :: s =>
    if c = .scalar '0' then some ([c], s)
    else if isDigit c then some (takeDigits (c :: s))
    else none

/-- A point and at least one digit. -/
def takePoint : Text → Text × Text
  | c :: d :: s => if c = .scalar '.' ∧ isDigit d then
      let (ds, rest) := takeDigits (d :: s)
      (c :: ds, rest)
    else ([], c :: d :: s)
  | s => ([], s)

/-- The letter of an exponent, perhaps a sign, and at least one digit. -/
def takeExponent (s : Text) : Text × Text :=
  match s with
  | c :: t =>
    if c = .scalar 'e' ∨ c = .scalar 'E' then
      let (sign, u) : Text × Text :=
        match t with
        | .scalar '+' :: u => ([.scalar '+'], u)
        | .scalar '-' :: u => ([.scalar '-'], u)
        | t => ([], t)
      match takeDigits u with
      | ([], _) => ([], s)
      | (ds, rest) => (c :: sign ++ ds, rest)
    else ([], s)
  | [] => ([], s)

/-- The characters of a text that has no surrogates. -/
def plainChars (t : Text) : List Char := t.filterMap CodePoint.char?

/-! ## Lexemes -/

/-- A token, or what stands in the place of one. -/
inductive Lexeme where
  | token (t : Token)
  /-- One of the words for numbers that JSON does not have. -/
  | constant (name : String)
  /-- An integer with too many digits. -/
  | longInteger
  /-- A quoted text with a fault. -/
  | broken (fault : TextFault)
  /-- A character that starts no token. -/
  | stray
  deriving DecidableEq

/-- A number and what follows it; `none` if there is no digit where there must be one. -/
def takeNumber? (s : Text) : Option (Lexeme × Text) := do
  let (negative, t) : Bool × Text :=
    match s with
    | .scalar '-' :: t => (true, t)
    | s => (false, s)
  let (whole, t) ← takeWhole? t
  let (point, t) := takePoint t
  let (exponent, t) := takeExponent t
  if point.isEmpty && exponent.isEmpty then
    if whole.length > digitLimit then some (.longInteger, t) else
    let n : Int := Binary64.ofDigitChars (plainChars whole)
    some (.token (.int (if negative then -n else n)), t)
  else
    let x := Binary64.ofMagnitudeChars? negative (plainChars (whole ++ point ++ exponent))
    some (.token (.real (x.getD (.nan false))), t)

/-- What follows a word at the front of a text. -/
def dropWord? (word : String) (s : Text) : Option Text :=
  let w := Text.ofString word
  if w.isPrefixOf s then some (s.drop w.length) else none

/-- Words and what they stand for. -/
def words : List (String × Lexeme) := [
  ("null", .token .null), ("true", .token (.bool true)), ("false", .token (.bool false)),
  ("NaN", .constant "NaN"), ("Infinity", .constant "Infinity"),
  ("-Infinity", .constant "-Infinity")]

/-- The token that a single character is. -/
def punctuation? (c : CodePoint) : Option Token :=
  match c with
  | .scalar '[' => some .beginArray
  | .scalar ']' => some .endArray
  | .scalar '\x7b' => some .beginObject
  | .scalar '\x7d' => some .endObject
  | .scalar ':' => some .colon
  | .scalar ',' => some .comma
  | _ => none

/-- The lexeme at the front of a text that starts with no blank, and what follows it. -/
def takeLexeme (s : Text) : Lexeme × Text :=
  match s with
  | [] => (.stray, [])
  | c :: t =>
    match punctuation? c with
    | some p => (.token p, t)
    | none =>
      if c = .scalar '"' then
        match takeQuoted s.length [] t with
        | .ok (text, rest) => (.token (.text text), rest)
        | .error e => (.broken e, [])
      else
        match words.findSome? fun (w, l) => (dropWord? w s).map (l, ·) with
        | some found => found
        | none => (takeNumber? s).getD (.stray, [])

/-- White space between tokens. -/
def isBlank (c : CodePoint) : Bool :=
  c = .scalar ' ' || c = .scalar '\t' || c = .scalar '\n' || c = .scalar '\r'

/-- A lexeme with the text from its start on. -/
structure Located where
  lexeme : Lexeme
  start : Text

/-- The lexemes of a text, up to the first one that cannot be continued behind. -/
def lexemes : Nat → List Located → Text → List Located
  | 0, taken, _ => taken.reverse
  | fuel + 1, taken, s =>
    match s.dropWhile isBlank with
    | [] => taken.reverse
    | s =>
      let (lexeme, rest) := takeLexeme s
      let taken := ⟨lexeme, s⟩ :: taken
      match lexeme with
      | .broken _ => taken.reverse
      | .stray => taken.reverse
      | _ => lexemes fuel taken rest

end PropertyList.Json
