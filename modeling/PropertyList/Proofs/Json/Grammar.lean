/-
  PropertyList.Proofs.Json.Grammar

  The grammar of JSON text, and what each text denotes.  Strings, numbers and words are
  spelled by rules of their own; `Derives` puts them together to values, elements and
  members.  Which digits an integer may have is a parameter, so that a reader with a limit
  is held against the same rules.
-/
import PropertyList.Proofs.Json.Unquoted

namespace PropertyList.Json

/-! ## Strings -/

/-- The letters that may stand behind a backslash, and what they stand for there. -/
def shortEscapes : List (Char × Char) := [
  ('"', '"'), ('\\', '\\'), ('/', '/'), ('b', '\x08'), ('f', '\x0C'), ('n', '\n'), ('r', '\r'),
  ('t', '\t')]

/-- Four hexadecimal digits, and the number that they stand for. -/
inductive IsHex : Nat → List Char → Prop where
  | digits {a b c d : Char} {i j k l : Nat} (ha : (CodePoint.scalar a).hexDigit? = some i)
      (hb : (CodePoint.scalar b).hexDigit? = some j) (hc : (CodePoint.scalar c).hexDigit? = some k)
      (hd : (CodePoint.scalar d).hexDigit? = some l) :
      IsHex (((i * 16 + j) * 16 + k) * 16 + l) [a, b, c, d]

/-- How a code point is spelled in a string: as itself, behind a backslash, or by its number. -/
inductive SpellsUnit : CodePoint → List Char → Prop where
  | plain {c : Char} (hcontrol : 0x20 ≤ c.toNat) (hquote : c ≠ '"') (hslash : c ≠ '\\') :
      SpellsUnit (.scalar c) [c]
  | short {letter c : Char} (h : (letter, c) ∈ shortEscapes) :
      SpellsUnit (.scalar c) ['\\', letter]
  | code {u : CodePoint} {w : List Char} (h : IsHex u.toNat w) : SpellsUnit u ('\\' :: 'u' :: w)

/-- How code points are spelled one behind the other. -/
inductive SpellsUnits : Text → List Char → Prop where
  | nil : SpellsUnits [] []
  | cons {u : CodePoint} {us : Text} {w s : List Char} (hu : SpellsUnit u w)
      (h : SpellsUnits us s) : SpellsUnits (u :: us) (w ++ s)

/-- Two code points that are the halves of a surrogate pair become the one that the pair stands
    for; a half without the other is kept. -/
def joinPairs : Text → Text
  | a :: b :: us =>
    if Utf16.isHigh a.toNat && Utf16.isLow b.toNat then
      codePoint (Utf16.joined a.toNat b.toNat) :: joinPairs us
    else a :: joinPairs (b :: us)
  | us => us

/-- How a text is spelled as a string. -/
inductive SpellsText : Text → List Char → Prop where
  | quoted {us : Text} {s : List Char} (h : SpellsUnits us s) :
      SpellsText (joinPairs us) ('"' :: (s ++ ['"']))

/-! ## Scalars -/

/-- Digits behind a minus sign, or alone. -/
def signed (negative : Bool) (s : List Char) : List Char := if negative then '-' :: s else s

section Grammar

variable (Fits : List Char → Prop)

/-- How a scalar is spelled.  A number with a point or an exponent is a real, and one without is an
    integer, whose digits must fit. -/
inductive SpellsScalar : Scalar → List Char → Prop where
  | null : SpellsScalar .null "null".toList
  | true : SpellsScalar (.bool true) "true".toList
  | false : SpellsScalar (.bool false) "false".toList
  | int (negative : Bool) {ds : List Char} (h : IsWhole ds) (hfits : Fits ds) :
      SpellsScalar (.int (if negative then -(Binary64.ofDigitChars ds : Int)
        else Binary64.ofDigitChars ds)) (signed negative ds)
  | real (negative : Bool) {s : List Char} {x : Binary64} (h : IsReal s)
      (hx : Binary64.ofMagnitudeChars? negative s = some x) :
      SpellsScalar (.real x) (signed negative s)
  | text {t : Text} {s : List Char} (h : SpellsText t s) : SpellsScalar (.text t) s

/-! ## Values -/

/-- White space, as much of it as there is. -/
def IsBlanks (w : List Char) : Prop := ∀ c ∈ w, isBlank (.scalar c) = true

/-- What can be derived: a value, an element (which is a value with white space around it), the
    elements of an array, a member of an object, or the members of an object. -/
inductive Phrase where
  | value (v : Value)
  | element (v : Value)
  | elements (vs : List Value)
  | member (key : Text) (v : Value)
  | members (es : List (Scalar × Value))

/-- The texts of the grammar.  The members of an object are set one after the other. -/
inductive Derives : Phrase → List Char → Prop where
  | scalar {s : Scalar} {w : List Char} (h : SpellsScalar Fits s w) :
      Derives (.value (.scalar s)) w
  | emptyArray {w : List Char} (hw : IsBlanks w) :
      Derives (.value (.array [])) ('[' :: (w ++ [']']))
  | array {vs : List Value} {s : List Char} (h : Derives (.elements vs) s) :
      Derives (.value (.array vs)) ('[' :: (s ++ [']']))
  | emptyObject {w : List Char} (hw : IsBlanks w) :
      Derives (.value (.dict [])) ('\x7b' :: (w ++ ['\x7d']))
  | object {es : List (Scalar × Value)} {s : List Char} (h : Derives (.members es) s) :
      Derives (.value (.ofEntries es)) ('\x7b' :: (s ++ ['\x7d']))
  | element {v : Value} {a w b : List Char} (ha : IsBlanks a) (h : Derives (.value v) w)
      (hb : IsBlanks b) : Derives (.element v) (a ++ (w ++ b))
  | firstElement {v : Value} {s : List Char} (h : Derives (.element v) s) :
      Derives (.elements [v]) s
  | nextElement {vs : List Value} {v : Value} {s t : List Char} (h : Derives (.elements vs) s)
      (hv : Derives (.element v) t) : Derives (.elements (vs ++ [v])) (s ++ ',' :: t)
  | member {key : Text} {v : Value} {a k b s : List Char} (ha : IsBlanks a) (hk : SpellsText key k)
      (hb : IsBlanks b) (h : Derives (.element v) s) :
      Derives (.member key v) (a ++ (k ++ (b ++ ':' :: s)))
  | firstMember {key : Text} {v : Value} {s : List Char} (h : Derives (.member key v) s) :
      Derives (.members [(.text key, v)]) s
  | nextMember {es : List (Scalar × Value)} {key : Text} {v : Value} {s t : List Char}
      (h : Derives (.members es) s) (hv : Derives (.member key v) t) :
      Derives (.members (es ++ [(.text key, v)])) (s ++ ',' :: t)

end Grammar

/-! ## Nesting -/

/-- A bracket that opens a container. -/
def isOpening (c : CodePoint) : Bool := c = .scalar '[' || c = .scalar '\x7b'

/-- A bracket that closes a container. -/
def isClosing (c : CodePoint) : Bool := c = .scalar ']' || c = .scalar '\x7d'

/-- Outside of strings, no more than `n` containers are open at once. -/
def NestsWithin (n : Nat) (t : List Char) : Prop :=
  ∀ before after, unquoted .outside (Text.ofChars t) = before ++ after →
    before.countP isOpening ≤ n + before.countP isClosing

end PropertyList.Json
