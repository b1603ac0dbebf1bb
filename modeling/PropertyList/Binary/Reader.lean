/-
  PropertyList.Binary.Reader

  From a binary list to a graph.  The nodes of the graph are the objects of the
  list by their numbers, so an object that is referred to twice is one node, and
  a reference back to a container that is still being read is an ordinary one.
  Only objects that can be reached from the root are looked at.
-/
import PropertyList.Binary.Record

namespace PropertyList.Binary

/-- Why a binary list cannot be read. -/
inductive ReadFault where
  | malformed
  | tooDeep
  deriving DecidableEq

/-- The parts of a binary list that stay the same while its objects are read. -/
structure Source where
  bytes : List UInt8
  refSize : Nat
  offsets : Array Nat

namespace Source

/-- The record of the object with a given number. -/
def record? (src : Source) (ref : Nat) : Option Record := do
  let offset ← src.offsets[ref]?
  Record.decode? src.refSize (src.bytes.drop offset)

end Source

/-- The nodes read so far. -/
abbrev Nodes := Array (Option Node)

namespace Nodes

/-- The scalar at a node, if it is one and has been read. -/
def scalar? (nodes : Nodes) (i : Nat) : Option Scalar :=
  match nodes[i]? with
  | some (some (.scalar s)) => some s
  | _ => none

/-- Whether two nodes are one and the same key, or name the same entry. -/
def sameKey (nodes : Nodes) (i j : Nat) : Bool :=
  i == j ||
    match nodes.scalar? i, nodes.scalar? j with
    | some a, some b => a.sameKey b
    | _, _ => false

/-- Sets an entry whose key and value are nodes: a key that is there keeps its place and its
    node, and a new one goes to the end. -/
def setEntry (nodes : Nodes) (entries : List (Nat × Nat)) (key value : Nat) : List (Nat × Nat) :=
  match entries with
  | [] => [(key, value)]
  | (k, v) :: rest =>
    if nodes.sameKey k key then (k, value) :: rest
    else (k, v) :: nodes.setEntry rest key value

end Nodes

/-- How much nesting can be read: an array uses up three units, a dictionary one. -/
def readBudget : Nat := 960

/-- Reads what can be reached from an object and has not been read yet.  A container is entered
    as empty first, so that a reference to it from inside finds it. -/
def readObject (src : Source) : Nat → Nodes → Nat → Except ReadFault Nodes
  | 0, _, _ => .error .tooDeep
  | budget + 1, nodes, ref =>
    match nodes[ref]? with
    | none => .error .malformed
    | some (some _) => .ok nodes
    | some none =>
      match src.record? ref with
      | none => .error .malformed
      | some (.scalar s) => .ok (nodes.setIfInBounds ref (some (.scalar s)))
      | some (.array items) =>
        let nodes := nodes.setIfInBounds ref (some (.array []))
        -- an array costs two levels where a dictionary costs one
        match budget with
        | budget + 2 => do
          let nodes ← items.foldlM (fun nodes i => readObject src budget nodes i) nodes
          .ok (nodes.setIfInBounds ref (some (.array items)))
        | _ => if items.isEmpty then .ok nodes else .error .tooDeep
      | some (.dict keys values) => do
        let nodes := nodes.setIfInBounds ref (some (.dict []))
        let (nodes, entries) ← (keys.zip values).foldlM
          (fun (nodes, entries) (k, v) => do
            let nodes ← readObject src budget nodes v
            let nodes ← readObject src budget nodes k
            if (nodes.scalar? k).isSome then .ok (nodes, nodes.setEntry entries k v)
            else .error .malformed)
          (nodes, [])
        .ok (nodes.setIfInBounds ref (some (.dict entries)))

/-- The graph of a binary list, whose header has been checked. -/
def read (bytes : List UInt8) : Except ReadFault Graph := do
  let start := bytes.length - 32
  let trailer := Trailer.decode (bytes.drop start)
  if bytes.length < 32 then .error .malformed else
  match Record.takeNumbers? trailer.offsetSize trailer.objectCount
      (bytes.drop trailer.tableOffset) with
  | none => .error .malformed
  | some (offsets, _) =>
    let src : Source := ⟨bytes, trailer.refSize, offsets.toArray⟩
    let nodes ← readObject src readBudget (Array.replicate trailer.objectCount none) trailer.root
    .ok ⟨nodes.map (·.getD (.scalar .null)), trailer.root⟩

end PropertyList.Binary
