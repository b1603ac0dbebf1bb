/-
  PropertyList.Document

  A property list with the encoding that it came from.  A document can be
  released, after which it no longer gives access to its content.
-/
import PropertyList.Encoding
import PropertyList.Graph

namespace PropertyList

/-- A property list, unless it has been released, and what it was read from. -/
structure Document where
  source : Selector
  graph : Option Graph

namespace Document

/-- Whether the document has been released. -/
def released (d : Document) : Bool := d.graph.isNone

/-- The document without its content. -/
def release (d : Document) : Document := { d with graph := none }

/-- The name of the kind of a node. -/
def kindName : Node → String
  | .dict _ => "dict"
  | .array _ => "list"
  | .scalar .null => "NoneType"
  | .scalar (.bool _) => "bool"
  | .scalar (.int _) => "int"
  | .scalar (.real _) => "float"
  | .scalar (.text _) => "str"
  | .scalar (.data _) => "bytes"
  | .scalar (.date _) => "datetime"
  | .scalar (.uid _) => "UID"

/-- A short description: the encoding, and the kind of the root. -/
def description (d : Document) : String :=
  let state := match d.graph with
    | none => "released"
    | some g => kindName (g.node g.root)
  "PlistDocument(" ++ d.source.name ++ ", " ++ state ++ ")"

@[simp] theorem released_release (d : Document) : d.release.released = true := rfl

end Document

end PropertyList
