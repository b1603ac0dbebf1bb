/-
  PropertyList.Xml.Event

  A document as a run of events: tags and text in their order.  Each event keeps
  the characters from its own markup on, which says in which line it stands.  A
  document that is not well formed still has the events in front of the fault.
-/
import PropertyList.Xml.Prolog

namespace PropertyList.Xml

/-- What happens in a document. -/
inductive EventKind where
  | startTag (name : List Char)
  | endTag (name : List Char)
  | text (chars : List Char)
  deriving DecidableEq

/-- An event, with the characters from its markup on.  The end of an empty-element tag stands
    behind that tag. -/
structure Event where
  kind : EventKind
  place : List Char

/-- Events, the last one first, and what follows the root element if it is well formed. -/
abbrev Scan := List Event × Option (List Char)

/-- Whether a word is at the front of a text, and what follows it. -/
def dropWord? (word : String) (s : List Char) : Option (List Char) :=
  let w := word.toList
  if w.isPrefixOf s then some (s.drop w.length) else none

/-- Reads the content of the open elements, whose names are in `names`, the innermost first,
    until the root element is closed. -/
def scanContent (α : Alphabet) (complete : Bool) :
    Nat → List (List Char) → List Event → List Char → Scan
  | 0, _, events, _ => (events, none)
  | fuel + 1, names, events, s =>
    match s with
    | [] => (events, none)
    | '<' :: '/' :: t =>
      match takeEndTag? α t, names with
      | some (name, rest), current :: outer =>
        if name = current then
          let events := ⟨.endTag name, s⟩ :: events
          if outer.isEmpty then (events, some rest)
          else scanContent α complete fuel outer events rest
        else (events, none)
      | _, _ => (events, none)
    | '<' :: '!' :: t =>
      match dropWord? "--" t with
      | some t =>
        match dropComment? t with
        | some rest => scanContent α complete fuel names events rest
        | none => (events, none)
      | none =>
        match (dropWord? "[CDATA[" t).bind (takeSection? []) with
        | some (text, rest) => scanContent α complete fuel names (⟨.text text, s⟩ :: events) rest
        | none => (events, none)
    | '<' :: '?' :: t =>
      match dropInstruction? α t with
      | some rest => scanContent α complete fuel names events rest
      | none => (events, none)
    | '<' :: t =>
      match takeStartTag? α complete (fuel + 1) t with
      | some (name, .element, rest) =>
        scanContent α complete fuel (name :: names) (⟨.startTag name, s⟩ :: events) rest
      | some (name, .emptyElement, rest) =>
        let events := ⟨.endTag name, rest⟩ :: ⟨.startTag name, s⟩ :: events
        if names.isEmpty then (events, some rest)
        else scanContent α complete fuel names events rest
      | none => (events, none)
    | '&' :: t =>
      match takeReference? α t with
      | some (r, rest) =>
        match r.text? complete with
        | some text => scanContent α complete fuel names (⟨.text text, s⟩ :: events) rest
        | none => (events, none)
      | none => (events, none)
    | s =>
      match takeCharacters? [] s with
      | some (text, rest) => scanContent α complete fuel names (⟨.text text, s⟩ :: events) rest
      | none => (events, none)

/-- Whether only comments, processing instructions and white space follow the root element. -/
def isEpilog (α : Alphabet) : Nat → List Char → Bool
  | 0, _ => false
  | fuel + 1, s =>
    match s.dropWhile isSpace with
    | [] => true
    | '<' :: '?' :: t =>
      match dropInstruction? α t with
      | some rest => isEpilog α fuel rest
      | none => false
    | '<' :: '!' :: '-' :: '-' :: t =>
      match dropComment? t with
      | some rest => isEpilog α fuel rest
      | none => false
    | _ => false

namespace Event

/-- The events of a document, and what is wrong behind them. -/
def ofSource (src : Source) : List Event × Option DocumentFault :=
  match readProlog src with
  | .error e => ([], some e)
  | .ok (complete, root) =>
    match scanContent src.alphabet complete (root.length + 1) [] [] root with
    | (events, none) => (events.reverse, some .malformed)
    | (events, some rest) =>
      if src.ending = .complete && isEpilog src.alphabet (rest.length + 1) rest then
        (events.reverse, none)
      else (events.reverse, some .malformed)

end Event

end PropertyList.Xml
