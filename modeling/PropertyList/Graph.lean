/-
  PropertyList.Graph

  A property list as a graph.  Two places that hold the same node hold one and
  the same value, so a container can be shared, or contain itself.  `value`
  unfolds a graph to a tree and `ofValue` makes a graph of a tree.
-/
import PropertyList.Value

namespace PropertyList

/-- A value whose parts are given by their numbers. -/
inductive Node where
  | scalar (s : Scalar)
  | array (items : List Nat)
  | dict (entries : List (Nat × Nat))
  deriving DecidableEq, Inhabited

/-- Numbered nodes, one of which is the root. -/
structure Graph where
  nodes : Array Node
  root : Nat
  deriving DecidableEq

namespace Graph

/-- A node by its number; null stands for a node that is not there. -/
def node (g : Graph) (i : Nat) : Node := g.nodes[i]?.getD (.scalar .null)

/-- The scalar at a node; null stands for a container. -/
def scalarAt (g : Graph) (i : Nat) : Scalar :=
  match g.node i with
  | .scalar s => s
  | _ => .null

/-! ## Unfolding to a tree -/

/-- The tree below a node.  `path` holds the containers around it, the nearest first; one that
    occurs again is cut off. -/
def unfold (g : Graph) : Nat → List Nat → Nat → Value
  | 0, _, _ => .null
  | fuel + 1, path, i =>
    match g.node i with
    | .scalar s => .scalar s
    | .array items =>
      match path.idxOf? i with
      | some k => .back (k + 1)
      | none => .array (items.map (g.unfold fuel (i :: path)))
    | .dict entries =>
      match path.idxOf? i with
      | some k => .back (k + 1)
      | none => .dict (entries.map fun (k, v) => (g.scalarAt k, g.unfold fuel (i :: path) v))

/-- The tree of a graph.  No path meets more containers than there are nodes. -/
def value (g : Graph) : Value := g.unfold (g.nodes.size + 2) [] g.root

/-! ## Making a graph of a tree -/

mutual

/-- Adds the nodes of a value, and gives its number.  `path` holds the numbers of the containers
    around it, the nearest first. -/
def addValue (path : List Nat) (nodes : Array Node) : Value → Array Node × Nat
  | .scalar s =>
    let i := nodes.size
    (nodes.push (.scalar s), i)
  | .array items =>
    let i := nodes.size
    let (nodes, ids) := addItems (i :: path) (nodes.push (.array [])) items
    (nodes.setIfInBounds i (.array ids), i)
  | .dict entries =>
    let i := nodes.size
    let (nodes, ids) := addEntries (i :: path) (nodes.push (.dict [])) entries
    (nodes.setIfInBounds i (.dict ids), i)
  | .back levels =>
    match path[levels - 1]? with
    | some i => (nodes, i)
    | none =>
      let i := nodes.size
      (nodes.push (.scalar .null), i)

/-- Adds the nodes of the items of an array. -/
def addItems (path : List Nat) (nodes : Array Node) : List Value → Array Node × List Nat
  | [] => (nodes, [])
  | v :: vs =>
    let (nodes, i) := addValue path nodes v
    let (nodes, is) := addItems path nodes vs
    (nodes, i :: is)

/-- Adds the nodes of the keys and values of a dictionary. -/
def addEntries (path : List Nat) (nodes : Array Node) :
    List (Scalar × Value) → Array Node × List (Nat × Nat)
  | [] => (nodes, [])
  | (k, v) :: es =>
    let key := nodes.size
    let (nodes, i) := addValue path (nodes.push (.scalar k)) v
    let (nodes, is) := addEntries path nodes es
    (nodes, (key, i) :: is)

end

/-- The graph of a tree, with a node of its own for each part. -/
def ofValue (v : Value) : Graph :=
  let (nodes, root) := addValue [] #[] v
  ⟨nodes, root⟩

end Graph

end PropertyList
