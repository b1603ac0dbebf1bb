/-
  PropertyList.Json.Writer

  From a value to JSON.  The value becomes tokens, and the tokens become text.
  JSON has no bytes, dates and UIDs, and no reals beyond the finite ones; a key
  that is a number, a boolean or null is written as the text of it.
-/
import PropertyList.Value
import PropertyList.Json.Token
import PropertyList.Text.Utf8

namespace PropertyList.Json

/-- The kinds of values that JSON does not have. -/
inductive ForeignKind where
  | data
  | date
  | uid
  deriving DecidableEq

/-- Why a value has no JSON form. -/
inductive WriteFault where
  | unorderedKeys
  | foreignKey (kind : ForeignKind)
  | foreignValue (kind : ForeignKind)
  | notFinite
  | longInteger
  | circular
  | surrogate
  | tooDeep
  deriving DecidableEq

/-- The name of a kind in messages. -/
def ForeignKind.name : ForeignKind → String
  | data => "bytes"
  | date => "datetime"
  | uid => "UID"

/-- What is said about a fault, if there is more to say than that JSON cannot express the value.
    About dates as keys and about reals the two layouts differ. -/
def WriteFault.detail? (layout : Layout) : WriteFault → Option String
  | foreignKey kind =>
    if layout = .compact ∧ kind = .date then none
    else some ("keys must be str, int, float, bool or None, not " ++ kind.name)
  | foreignValue kind => some ("Object of type " ++ kind.name ++ " is not JSON serializable")
  | notFinite =>
    if layout = .compact then some "Out of range float values are not JSON compliant" else none
  | circular => some "Circular reference detected"
  | unorderedKeys => none
  | longInteger => none
  | surrogate => none
  | tooDeep => none

/-- How many levels of containers can be written. -/
def writeDepth : Nat := 990

/-- The token of a scalar. -/
def scalarToken : Scalar → Except WriteFault Token
  | .null => .ok .null
  | .bool b => .ok (.bool b)
  | .int n => if Integer.isPrintable n then .ok (.int n) else .error .longInteger
  | .real x => if x.isFinite then .ok (.real x) else .error .notFinite
  | .text t => .ok (.text t)
  | .data _ => .error (.foreignValue .data)
  | .date _ => .error (.foreignValue .date)
  | .uid _ => .error (.foreignValue .uid)

/-- The text of a key: text itself, and of all else the text of its token. -/
def keyText : Scalar → Except WriteFault Text
  | .text t => .ok t
  | .data _ => .error (.foreignKey .data)
  | .date _ => .error (.foreignKey .date)
  | .uid _ => .error (.foreignKey .uid)
  | s => (scalarToken s).map Token.toText

/-- Items between brackets, with commas between them. -/
def bracketed (first last : Token) (items : List (List Token)) : List Token :=
  first :: ((items.intersperse [.comma]).flatten ++ [last])

/-- Entries in the order in which they are written. -/
def ordered {α : Type} (sortKeys : Bool) (entries : List (Scalar × α)) :
    Except WriteFault (List (Scalar × α)) :=
  if sortKeys then
    match Scalar.sortByKey? (fun e : Scalar × α => e.1) entries with
    | some es => .ok es
    | none => .error .unorderedKeys
  else .ok entries

mutual

/-- The tokens of a value that has `depth` containers around it. -/
def tokens (sortKeys : Bool) (depth : Nat) : Value → Except WriteFault (List Token)
  | .scalar s => (scalarToken s).map ([·])
  | .back _ => .error .circular
  | .array items =>
    if writeDepth ≤ depth then .error .tooDeep
    else (itemTokens sortKeys depth items).map (bracketed .beginArray .endArray)
  | .dict entries =>
    if writeDepth ≤ depth then .error .tooDeep
    else do
      let members ← ordered sortKeys (entryTokens sortKeys depth entries)
      let members ← members.mapM fun (key, value) => do
        let key ← keyText key
        let value ← value
        .ok (.text key :: .colon :: value)
      .ok (bracketed .beginObject .endObject members)

/-- The tokens of each item of an array. -/
def itemTokens (sortKeys : Bool) (depth : Nat) :
    List Value → Except WriteFault (List (List Token))
  | [] => .ok []
  | v :: vs => do
    let t ← tokens sortKeys (depth + 1) v
    let ts ← itemTokens sortKeys depth vs
    .ok (t :: ts)

/-- The keys of a dictionary, each with the tokens of its value or why there are none. -/
def entryTokens (sortKeys : Bool) (depth : Nat) :
    List (Scalar × Value) → List (Scalar × Except WriteFault (List Token))
  | [] => []
  | (k, v) :: es => (k, tokens sortKeys (depth + 1) v) :: entryTokens sortKeys depth es

end

/-- The JSON text of a value. -/
def writeText (layout : Layout) (sortKeys : Bool) (v : Value) : Except WriteFault Text :=
  (tokens sortKeys 0 v).map layout.render

/-- The JSON bytes of a value. -/
def write (layout : Layout) (sortKeys : Bool) (v : Value) : Except WriteFault (List UInt8) := do
  let text ← writeText layout sortKeys v
  match Utf8.encodeText? text with
  | some bytes => .ok bytes
  | none => .error .surrogate

end PropertyList.Json
