/-
  PropertyList.Binary.Numbering

  Which objects a binary list holds, and in what order.  Equal scalars of one
  kind become one object, except UIDs and reals that are no numbers, which stay
  apart as the nodes that they are; a container is its node.  A container comes
  before its parts, and the keys of a dictionary come before its values.
-/
import PropertyList.Graph

namespace PropertyList.Binary

/-- What makes two places hold the same object. -/
inductive Identity where
  | value (s : Scalar)
  | node (i : Nat)
  deriving DecidableEq

/-- The identity of a node.  The two zeros are equal, so they share one. -/
def identity (g : Graph) (i : Nat) : Identity :=
  match g.node i with
  | .scalar (.uid _) => .node i
  | .scalar (.real x) =>
    if x.isNaN then .node i
    else if x.magnitude = 0 then .value (.real (.ofMagnitude false 0))
    else .value (.real x)
  | .scalar s => .value s
  | _ => .node i

/-- An object: its identity, and the node where it was met first. -/
structure Numbered where
  identity : Identity
  node : Nat
  deriving DecidableEq

/-- The objects met so far, the last one first. -/
abbrev Numbering := List Numbered

namespace Numbering

/-- The number of an object, counted from the first one met. -/
def number? (objects : Numbering) (id : Identity) : Option Nat :=
  match objects with
  | [] => none
  | o :: rest => if o.identity = id then some rest.length else number? rest id

end Numbering

/-- Why the objects of a list cannot be numbered. -/
inductive NumberingFault where
  | unorderedKeys
  | keyNotText
  | tooDeep
  deriving DecidableEq

/-- The entries of a dictionary in the order in which they are written. -/
def orderedEntries (g : Graph) (sortKeys : Bool) (entries : List (Nat × Nat)) :
    Except NumberingFault (List (Nat × Nat)) := do
  let entries ←
    if sortKeys then
      match Scalar.sortByKey? (fun e : Nat × Nat => g.scalarAt e.1) entries with
      | some es => pure es
      | none => .error .unorderedKeys
    else pure entries
  if entries.all fun e => (g.scalarAt e.1).text?.isSome then pure entries
  else .error .keyNotText

/-- How many levels of containers can be numbered. -/
def numberingBudget : Nat := 990

/-- Numbers what can be reached from a node and has no number yet. -/
def number (g : Graph) (sortKeys : Bool) :
    Nat → Numbering → Nat → Except NumberingFault Numbering
  | 0, _, _ => .error .tooDeep
  | budget + 1, objects, i =>
    let id := identity g i
    if (objects.number? id).isSome then .ok objects else
    let objects := ⟨id, i⟩ :: objects
    match g.node i with
    | .scalar _ => .ok objects
    | .array items => items.foldlM (number g sortKeys budget) objects
    | .dict entries => do
      let entries ← orderedEntries g sortKeys entries
      let objects ← (entries.map (·.1)).foldlM (number g sortKeys budget) objects
      (entries.map (·.2)).foldlM (number g sortKeys budget) objects

/-- The objects of a graph in the order of their numbers. -/
def numberAll (g : Graph) (sortKeys : Bool) : Except NumberingFault Numbering :=
  number g sortKeys numberingBudget [] g.root

end PropertyList.Binary
