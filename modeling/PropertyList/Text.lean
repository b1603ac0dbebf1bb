/-
  PropertyList.Text

  Text as property lists hold it: a list of Unicode code points.  Escapes in
  JSON can name half of a surrogate pair, so a text may hold lone surrogates,
  which no strict encoding can write.  `chars?` says when a text is free of them.
-/

namespace PropertyList

/-- A Unicode code point: a scalar value, or one of the 2048 surrogates. -/
inductive CodePoint where
  | scalar (c : Char)
  | surrogate (offset : Fin 2048)
  deriving DecidableEq, Inhabited

namespace CodePoint

/-- The number of a code point; surrogates start at `U+D800`. -/
def toNat : CodePoint → Nat
  | scalar c => c.toNat
  | surrogate s => 0xD800 + s.val

/-- The code point with a given number, if there is one. -/
def ofNat? (n : Nat) : Option CodePoint :=
  if h : n.isValidChar then
    some (.scalar (Char.ofNatAux n h))
  else if h : 0xD800 ≤ n ∧ n < 0xE000 then
    some (.surrogate ⟨n - 0xD800, by omega⟩)
  else
    none

/-- The character that a code point is, if it is no surrogate. -/
def char? : CodePoint → Option Char
  | scalar c => some c
  | surrogate _ => none

/-- A code point of the seven-bit range. -/
def isAscii (c : CodePoint) : Bool := c.toNat < 0x80

end CodePoint

/-- A list of code points. -/
abbrev Text := List CodePoint

namespace Text

/-- Characters as text. -/
def ofChars (cs : List Char) : Text := cs.map .scalar

/-- A string as text. -/
def ofString (s : String) : Text := ofChars s.toList

/-- The characters of a text without surrogates. -/
def chars? (t : Text) : Option (List Char) := t.mapM CodePoint.char?

/-- The text as a string, each surrogate shown as the replacement character. -/
def toString (t : Text) : String :=
  String.ofList (t.map fun c => c.char?.getD '\uFFFD')

/-- Lexicographic order by code point. -/
def less : Text → Text → Bool
  | [], [] => false
  | [], _ :: _ => true
  | _ :: _, [] => false
  | a :: s, b :: t =>
    if a.toNat < b.toNat then true
    else if b.toNat < a.toNat then false
    else less s t

@[simp] theorem ofChars_nil : ofChars [] = [] := rfl

@[simp] theorem ofChars_cons (c : Char) (cs : List Char) :
    ofChars (c :: cs) = .scalar c :: ofChars cs := rfl

theorem ofChars_append (s t : List Char) : ofChars (s ++ t) = ofChars s ++ ofChars t := by
  simp [ofChars]

@[simp] theorem chars?_ofChars (cs : List Char) : (ofChars cs).chars? = some cs := by
  induction cs with
  | nil => rfl
  | cons c cs ih =>
    simp only [chars?, ofChars_cons, List.mapM_cons, CodePoint.char?] at *
    simp [ih]

theorem less_irrefl (t : Text) : less t t = false := by
  induction t with
  | nil => rfl
  | cons a t ih => simp [less, ih]

end Text

end PropertyList
