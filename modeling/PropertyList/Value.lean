/-
  PropertyList.Value

  A property list as a tree.  A list read from binary data may contain itself;
  the tree then ends in `back k`, which stands for the container `k` levels up.
-/
import PropertyList.Scalar

namespace PropertyList

/-- A value of a property list. -/
inductive Value where
  | scalar (s : Scalar)
  | array (items : List Value)
  | dict (entries : List (Scalar × Value))
  | back (levels : Nat)
  deriving Inhabited

namespace Value

abbrev null : Value := .scalar .null
abbrev bool (b : Bool) : Value := .scalar (.bool b)
abbrev int (n : Int) : Value := .scalar (.int n)
abbrev real (x : Binary64) : Value := .scalar (.real x)
abbrev text (t : Text) : Value := .scalar (.text t)
abbrev data (bytes : List UInt8) : Value := .scalar (.data bytes)
abbrev date (t : DateTime) : Value := .scalar (.date t)
abbrev uid (n : Nat) : Value := .scalar (.uid n)

/-- What the value under `key` becomes: a key that is there keeps its place and its form, and a
    new one goes to the end. -/
def setEntry (entries : List (Scalar × Value)) (key : Scalar) (value : Value) :
    List (Scalar × Value) :=
  match entries with
  | [] => [(key, value)]
  | (k, v) :: rest =>
    if k.sameKey key then (k, value) :: rest
    else (k, v) :: setEntry rest key value

/-- The dictionary that results from setting entries one after the other. -/
def ofEntries (entries : List (Scalar × Value)) : Value :=
  .dict (entries.foldl (fun es (k, v) => setEntry es k v) [])

end Value

end PropertyList
