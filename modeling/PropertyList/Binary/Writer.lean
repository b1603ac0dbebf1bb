/-
  PropertyList.Binary.Writer

  From a graph to a binary list.  The objects are numbered first; then each is
  written as a record behind the one before it, and the table of their offsets
  and the trailer close the list.  The root has number 0.
-/
import PropertyList.Binary.Numbering
import PropertyList.Binary.Record

namespace PropertyList.Binary

/-- Why a graph has no binary form. -/
inductive WriteFault where
  | numbering (fault : NumberingFault)
  | record (fault : Record.Fault)
  deriving DecidableEq

/-- The number of the object at a node. -/
def refOf (g : Graph) (objects : Numbering) (i : Nat) : Nat :=
  (objects.number? (identity g i)).getD 0

/-- The record of the object at a node. -/
def recordOf (g : Graph) (sortKeys : Bool) (objects : Numbering) (i : Nat) :
    Except WriteFault Record :=
  match g.node i with
  | .scalar s => .ok (.scalar s)
  | .array items => .ok (.array (items.map (refOf g objects)))
  | .dict entries =>
    match orderedEntries g sortKeys entries with
    | .ok entries =>
      .ok (.dict (entries.map fun e => refOf g objects e.1)
        (entries.map fun e => refOf g objects e.2))
    | .error e => .error (.numbering e)

/-- The records of objects, in their order. -/
def encodeObjects (g : Graph) (sortKeys : Bool) (refSize : Nat) (objects : Numbering) :
    List Numbered → Except WriteFault (List (List UInt8))
  | [] => .ok []
  | o :: rest => do
    let record ← recordOf g sortKeys objects o.node
    let bytes ← (record.encode refSize).mapError .record
    let more ← encodeObjects g sortKeys refSize objects rest
    .ok (bytes :: more)

/-- Where pieces start that follow each other from `start` on. -/
def offsetsFrom (start : Nat) : List (List UInt8) → List Nat
  | [] => []
  | p :: rest => start :: offsetsFrom (start + p.length) rest

/-- A list with given records. -/
def assemble (refSize : Nat) (records : List (List UInt8)) : List UInt8 :=
  let body := records.flatten
  let tableOffset := header.length + body.length
  let offsetSize := widthFor tableOffset
  let trailer : Trailer :=
    { offsetSize, refSize, objectCount := records.length, root := 0, tableOffset }
  header ++ body ++ (offsetsFrom header.length records).flatMap (bigEndian offsetSize) ++
    trailer.encode

/-- The binary list of a graph. -/
def write (g : Graph) (sortKeys : Bool) : Except WriteFault (List UInt8) := do
  let objects ← (numberAll g sortKeys).mapError .numbering
  let refSize := widthFor objects.length
  let records ← encodeObjects g sortKeys refSize objects objects.reverse
  .ok (assemble refSize records)

end PropertyList.Binary
