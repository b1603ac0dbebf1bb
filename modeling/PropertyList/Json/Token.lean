/-
  PropertyList.Json.Token

  The tokens of JSON, and their text.  Compact text has no blanks at all; pretty
  text puts each item on a line of its own, indented by two spaces a level.
-/
import PropertyList.Number.Decimal
import PropertyList.Text.Printable

namespace PropertyList.Json

/-- A token. -/
inductive Token where
  | beginArray
  | endArray
  | beginObject
  | endObject
  | colon
  | comma
  | null
  | bool (b : Bool)
  | int (n : Int)
  | real (x : Binary64)
  | text (t : Text)
  deriving DecidableEq

/-! ## The text of a token -/

/-- A code point inside quotes.  Quotes, backslashes and control characters are escaped; all
    else stands for itself. -/
def escaped (c : CodePoint) : Text :=
  let short (e : Char) : Text := [.scalar '\\', .scalar e]
  let n := c.toNat
  if c = .scalar '"' then short '"'
  else if c = .scalar '\\' then short '\\'
  else if n = 0x0A then short 'n'
  else if n = 0x0D then short 'r'
  else if n = 0x09 then short 't'
  else if n = 0x0C then short 'f'
  else if n = 0x08 then short 'b'
  else if n < 0x20 then Text.ofChars ('\\' :: 'u' :: hexDigits 4 n)
  else [c]

/-- A text between quotes. -/
def quoted (t : Text) : Text := .scalar '"' :: (t.flatMap escaped ++ [.scalar '"'])

namespace Token

/-- The text of a token. -/
def toText : Token → Text
  | beginArray => [.scalar '[']
  | endArray => [.scalar ']']
  | beginObject => [.scalar '{']
  | endObject => [.scalar '}']
  | colon => [.scalar ':']
  | comma => [.scalar ',']
  | null => Text.ofString "null"
  | bool true => Text.ofString "true"
  | bool false => Text.ofString "false"
  | int n => Text.ofChars (Integer.decimal n)
  | real x => Text.ofChars x.text
  | text t => quoted t

end Token

/-! ## Layout -/

/-- Tokens one behind the other. -/
def compact (tokens : List Token) : Text := tokens.flatMap Token.toText

/-- The start of a line at a level. -/
def newline (level : Nat) : Text := .scalar '\n' :: List.replicate (2 * level) (.scalar ' ')

/-- Tokens in lines, from a level on. -/
def prettyFrom (level : Nat) : List Token → List Text
  | [] => []
  | .beginArray :: .endArray :: rest => Text.ofString "[]" :: prettyFrom level rest
  | .beginObject :: .endObject :: rest => Text.ofString "\x7b\x7d" :: prettyFrom level rest
  | token :: rest =>
    match token with
    | .beginArray => (token.toText ++ newline (level + 1)) :: prettyFrom (level + 1) rest
    | .beginObject => (token.toText ++ newline (level + 1)) :: prettyFrom (level + 1) rest
    | .endArray => (newline (level - 1) ++ token.toText) :: prettyFrom (level - 1) rest
    | .endObject => (newline (level - 1) ++ token.toText) :: prettyFrom (level - 1) rest
    | .comma => (token.toText ++ newline level) :: prettyFrom level rest
    | .colon => Text.ofString ": " :: prettyFrom level rest
    | _ => token.toText :: prettyFrom level rest

/-- Tokens in lines, with a line end behind the last one. -/
def pretty (tokens : List Token) : Text := (prettyFrom 0 tokens).flatten ++ [.scalar '\n']

/-- The two ways to write tokens. -/
inductive Layout where
  | compact
  | pretty
  deriving DecidableEq

/-- The text of tokens. -/
def Layout.render : Layout → List Token → Text
  | .compact => Json.compact
  | .pretty => Json.pretty

end PropertyList.Json
