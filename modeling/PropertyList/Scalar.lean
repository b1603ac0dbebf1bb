/-
  PropertyList.Scalar

  The values without parts, which are also all that a dictionary key can be.
  `sameKey` says when two keys name the same entry: numbers and booleans are
  compared as numbers, everything else by kind and content.
-/
import PropertyList.Text
import PropertyList.DateTime

namespace PropertyList

/-- A value without parts. -/
inductive Scalar where
  | null
  | bool (b : Bool)
  | int (n : Int)
  | real (x : Binary64)
  | text (t : Text)
  | data (bytes : List UInt8)
  | date (t : DateTime)
  | uid (n : Nat)
  deriving DecidableEq, Inhabited

namespace Scalar

/-! ## Numbers -/

/-- The integer that a boolean or an integer is. -/
def integer? : Scalar → Option Int
  | bool b => some (if b then 1 else 0)
  | int n => some n
  | _ => none

/-- Booleans, integers and reals. -/
def isNumber : Scalar → Bool
  | bool _ => true
  | int _ => true
  | real _ => true
  | _ => false

/-- Compares two numbers; `none` if one is no number. -/
def compareNumbers? (a b : Scalar) : Option Ordering :=
  match a, b with
  | real x, real y => x.compare? y
  | real x, b => b.integer?.bind fun n => (Binary64.compareInt? n x).map Ordering.swap
  | a, real y => a.integer?.bind fun n => Binary64.compareInt? n y
  | a, b => a.integer?.bind fun m => b.integer?.map fun n => compare m n

/-! ## Keys -/

/-- Whether two keys name the same entry.  Numbers do if they are equal as numbers, so `1`,
    `1.0` and `true` do, and a real that is no number does not even name its own entry. -/
def sameKey (a b : Scalar) : Bool :=
  if a.isNumber && b.isNumber then compareNumbers? a b = some .eq
  else a = b

/-- The text of a key that is text. -/
def text? : Scalar → Option Text
  | text t => some t
  | _ => none

/-- The kinds of keys that have an order among themselves. -/
inductive KeyOrder where
  | numeric
  | textual
  | bytewise
  | temporal
  deriving DecidableEq

/-- The order that a key takes part in; null and UIDs have none. -/
def keyOrder? : Scalar → Option KeyOrder
  | bool _ => some .numeric
  | int _ => some .numeric
  | real _ => some .numeric
  | text _ => some .textual
  | data _ => some .bytewise
  | date _ => some .temporal
  | null => none
  | uid _ => none

/-- Lexicographic order of natural numbers. -/
def lessNats : List Nat → List Nat → Bool
  | [], [] => false
  | [], _ :: _ => true
  | _ :: _, [] => false
  | a :: s, b :: t => if a < b then true else if b < a then false else lessNats s t

/-- The order of two keys of the same kind. -/
def lessKey : Scalar → Scalar → Bool
  | text s, text t => s.less t
  | data s, data t => lessNats (s.map (·.toNat)) (t.map (·.toNat))
  | date s, date t => lessNats s.fields t.fields
  | a, b => compareNumbers? a b = some .lt

/-- Whether keys can be put in order: there is nothing to compare, or they are all of one kind
    that has an order. -/
def orderable (keys : List Scalar) : Bool :=
  match keys with
  | [] => true
  | [_] => true
  | k :: rest =>
    match k.keyOrder? with
    | some o => rest.all fun k => k.keyOrder? = some o
    | none => false

/-- Entries in ascending order of their keys, if the keys can be put in order.  Entries whose
    keys compare as equal stay in their order. -/
def sortByKey? {α : Type} (key : α → Scalar) (entries : List α) : Option (List α) :=
  if orderable (entries.map key) then
    some (entries.mergeSort fun a b => !lessKey (key b) (key a))
  else
    none

theorem sameKey_text (s t : Text) : sameKey (text s) (text t) = decide (s = t) := by
  simp [sameKey, isNumber]

end Scalar

end PropertyList
