/-
  PropertyList.ByteSink

  A buffer to which bytes are appended one at a time.  It starts with some
  capacity and grows by a fixed increment whenever a byte has no room.
-/

namespace PropertyList

/-- Bytes, and the room for them. -/
structure ByteSink where
  increment : Nat
  capacity : Nat
  bytes : Array UInt8

namespace ByteSink

/-- Why there is no such buffer. -/
inductive CreateFault where
  | incrementNotPositive
  | negativeCapacity
  deriving DecidableEq

/-- Why a byte was not appended. -/
inductive AppendFault where
  | cannotGrow
  | notAByte
  deriving DecidableEq

/-- An empty buffer.  The first capacity is one increment unless it is given. -/
def create (increment : Int) (capacity : Option Int) : Except CreateFault ByteSink :=
  let capacity := capacity.getD increment
  if increment ≤ 0 then .error .incrementNotPositive
  else if capacity < 0 then .error .negativeCapacity
  else .ok ⟨increment.toNat, capacity.toNat, #[]⟩

/-- How many bytes there are. -/
def length (s : ByteSink) : Nat := s.bytes.size

/-- Whether the next byte has no room. -/
def isFull (s : ByteSink) : Bool := s.capacity ≤ s.length

/-- The buffer with room for one more increment. -/
def grown (s : ByteSink) : ByteSink := { s with capacity := s.capacity + s.increment }

/-- The buffer with room for the next byte. -/
def withRoom (s : ByteSink) : ByteSink := if s.isFull then s.grown else s

/-- The byte that an integer is. -/
def byte? (n : Int) : Option UInt8 :=
  if 0 ≤ n ∧ n < 256 then some (UInt8.ofNat n.toNat) else none

/-- Appends a byte.  Room is made first, so a number that is no byte can make the buffer grow;
    `canGrow` says whether growing succeeds. -/
def append (s : ByteSink) (canGrow : Bool) (n : Int) : ByteSink × Option AppendFault :=
  if s.isFull && !canGrow then (s, some .cannotGrow)
  else
    let s := s.withRoom
    match byte? n with
    | some b => ({ s with bytes := s.bytes.push b }, none)
    | none => (s, some .notAByte)

/-- Appends bytes up to the first one that fails. -/
def appendAll (s : ByteSink) (canGrow : Bool) : List UInt8 → ByteSink × Option AppendFault
  | [] => (s, none)
  | b :: rest =>
    match s.append canGrow b.toNat with
    | (s, none) => s.appendAll canGrow rest
    | (s, some fault) => (s, some fault)

/-- The bytes in their order. -/
def value (s : ByteSink) : List UInt8 := s.bytes.toList

theorem append_isFull {s : ByteSink} {n : Int} (h : s.isFull = true) :
    s.append false n = (s, some .cannotGrow) := by
  simp [append, h]

theorem value_append {s : ByteSink} {b : UInt8} :
    (s.append true b.toNat).1.value = s.value ++ [b] := by
  have h : byte? (b.toNat : Int) = some b := by
    have := b.toNat_lt
    simp [byte?]
    omega
  by_cases hf : s.isFull = true <;> simp [append, h, value, withRoom, grown, hf]

end ByteSink

end PropertyList
