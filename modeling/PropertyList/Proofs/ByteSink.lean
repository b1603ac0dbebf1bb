/-
  PropertyList.Proofs.ByteSink

  What any calls of `append` leave in a buffer.  A call refuses for want of room, appends
  its byte, or finds that its number is no byte; what holds behind all calls follows from
  these three.  The room is what the first capacity and whole increments make, and is
  never much more than the bytes need.  A buffer whose cells are there before they are
  used answers every call alike.
-/
import Mathlib.Algebra.Order.Floor.Div
import PropertyList.ByteSink

namespace PropertyList

namespace ByteSink

/-! ## Numbers -/

theorem byte?_eq_none_iff {n : Int} : byte? n = none ↔ n < 0 ∨ 255 < n := by
  rw [byte?]
  split <;> simp <;> omega

theorem byte?_eq_some {n : Int} (h₀ : 0 ≤ n) (h₁ : n ≤ 255) :
    byte? n = some (UInt8.ofNat n.toNat) := if_pos ⟨h₀, by omega⟩

/-! ## Room -/

@[simp] theorem increment_withRoom (s : ByteSink) : s.withRoom.increment = s.increment := by
  rw [withRoom]
  split <;> rfl

@[simp] theorem bytes_withRoom (s : ByteSink) : s.withRoom.bytes = s.bytes := by
  rw [withRoom]
  split <;> rfl

theorem isFull_iff {s : ByteSink} : s.isFull = true ↔ s.capacity ≤ s.length := decide_eq_true_iff

/-- Room is made by one increment, and only where there is none. -/
theorem capacity_withRoom (s : ByteSink) :
    s.withRoom.capacity = if s.capacity ≤ s.length then s.capacity + s.increment else s.capacity := by
  rw [withRoom]
  split
  · next hfull => rw [if_pos (isFull_iff.mp hfull)]; rfl
  · next hfull => rw [if_neg fun h => hfull (isFull_iff.mpr h)]

/-! ## One call -/

/-- A call of `append`: whether a buffer could grow in it, and its number. -/
structure Call where
  canGrow : Bool
  number : Int

/-- A buffer behind a call, and the answer. -/
def call (s : ByteSink) (c : Call) : ByteSink × Option AppendFault := s.append c.canGrow c.number

/-- All that a call can come to. -/
inductive Answers (s : ByteSink) (c : Call) : ByteSink × Option AppendFault → Prop
  /-- There is no room and none can be made; nothing changes. -/
  | refused (hfull : s.capacity ≤ s.length) (hgrow : c.canGrow = false) :
      Answers s c (s, some .cannotGrow)
  /-- The byte stands behind those that were there. -/
  | pushed {b : UInt8} (hroom : s.capacity ≤ s.length → c.canGrow = true)
      (hbyte : byte? c.number = some b) :
      Answers s c ({ s.withRoom with bytes := s.bytes.push b }, none)
  /-- There is room now, but nothing to put there. -/
  | rejected (hroom : s.capacity ≤ s.length → c.canGrow = true) (hbyte : byte? c.number = none) :
      Answers s c (s.withRoom, some .notAByte)

theorem answers_call (s : ByteSink) (c : Call) : Answers s c (s.call c) := by
  rw [call, append]
  split
  · next h =>
    rw [Bool.and_eq_true, isFull_iff, Bool.not_eq_true'] at h
    exact .refused h.1 h.2
  · next h =>
    have hroom : s.capacity ≤ s.length → c.canGrow = true := by
      intro hfull
      simpa [isFull_iff.mpr hfull] using h
    dsimp only
    split
    · next b hbyte =>
      rw [bytes_withRoom]
      exact .pushed hroom hbyte
    · next hbyte => exact .rejected hroom hbyte

section

variable {s : ByteSink} {c : Call} {r : ByteSink × Option AppendFault}

theorem Answers.increment_eq (h : Answers s c r) : r.1.increment = s.increment := by
  cases h with
  | refused => rfl
  | pushed => exact increment_withRoom s
  | rejected => exact increment_withRoom s

theorem Answers.capacity_le (h : Answers s c r) : s.capacity ≤ r.1.capacity := by
  have hroom : s.capacity ≤ s.withRoom.capacity := by
    rw [capacity_withRoom]
    split <;> omega
  cases h with
  | refused => exact le_rfl
  | pushed => exact hroom
  | rejected => exact hroom

/-- The bytes of a call with an answer: its own, if there is no fault. -/
def Call.accepted? (c : Call) (fault : Option AppendFault) : Option UInt8 :=
  if fault.isSome then none else byte? c.number

theorem Answers.value_eq (h : Answers s c r) :
    r.1.value = s.value ++ (c.accepted? r.2).toList := by
  cases h with
  | refused => exact (List.append_nil _).symm
  | @pushed b hroom hbyte =>
    rw [Call.accepted?, if_neg (by simp), hbyte]
    exact Array.toList_push
  | rejected => simp [Call.accepted?, value]

/-- A number that is no byte leaves the bytes alone, and is reported as such unless there is no room
    for it either. -/
theorem Answers.of_not_byte (h : Answers s c r) (hbyte : byte? c.number = none) :
    r.1.value = s.value ∧
      r.2 = some (if s.capacity ≤ s.length ∧ c.canGrow = false then .cannotGrow else .notAByte) := by
  cases h with
  | refused hfull hgrow => exact ⟨rfl, by rw [if_pos ⟨hfull, hgrow⟩]⟩
  | pushed hroom hsome => cases hbyte.symm.trans hsome
  | rejected hroom =>
    have hgranted : ¬ (s.capacity ≤ s.length ∧ c.canGrow = false) := by
      rintro ⟨hfull, hgrow⟩
      cases hgrow.symm.trans (hroom hfull)
    exact ⟨by rw [value, bytes_withRoom, value], by rw [if_neg hgranted]⟩

/-- A byte is appended where there is room, or can be made. -/
theorem Answers.of_byte (h : Answers s c r) {b : UInt8} (hbyte : byte? c.number = some b)
    (hroom : s.capacity ≤ s.length → c.canGrow = true) :
    r = ({ s.withRoom with bytes := s.bytes.push b }, none) := by
  cases h with
  | refused hfull hgrow => cases hgrow.symm.trans (hroom hfull)
  | pushed _ hsome => rw [Option.some.inj (hsome.symm.trans hbyte)]
  | rejected _ hnone => cases hnone.symm.trans hbyte

end

/-! ## The room of a buffer -/

/-- How the room of a buffer with a first capacity goes with its bytes: it has grown by whole
    increments, the bytes fit, and at most one increment lies idle that was not there at first. -/
structure Roomy (first : Nat) (s : ByteSink) : Prop where
  grown : ∃ times, s.capacity = first + s.increment * times
  fits : s.length ≤ s.capacity
  idle : s.capacity ≤ max first (s.length + s.increment)

/-- Room that was made has been used, at least in part. -/
def Used (first : Nat) (s : ByteSink) : Prop :=
  s.capacity = first ∨ s.capacity < s.length + s.increment

variable {first : Nat} {s : ByteSink}

theorem Roomy.withRoom (h : Roomy first s) : Roomy first s.withRoom := by
  obtain ⟨times, hgrown⟩ := h.grown
  have hfits := h.fits
  have hidle := h.idle
  have hlength : s.withRoom.length = s.length := by rw [length, bytes_withRoom, length]
  constructor
  · rw [capacity_withRoom, increment_withRoom]
    split
    · exact ⟨times + 1, by rw [hgrown, Nat.mul_succ, Nat.add_assoc]⟩
    · exact ⟨times, hgrown⟩
  · rw [capacity_withRoom, hlength]
    split <;> omega
  · rw [capacity_withRoom, increment_withRoom, hlength]
    split <;> omega

theorem Roomy.length_lt (h : Roomy first s) (hpos : 0 < s.increment) :
    s.length < s.withRoom.capacity := by
  have hfits := h.fits
  rw [capacity_withRoom]
  split <;> omega

theorem length_push (s : ByteSink) (b : UInt8) :
    ({ s.withRoom with bytes := s.bytes.push b } : ByteSink).length = s.length + 1 :=
  Array.size_push b

theorem Roomy.answers {c : Call} {r : ByteSink × Option AppendFault} (h : Roomy first s)
    (hpos : 0 < s.increment) (hr : Answers s c r) : Roomy first r.1 := by
  cases hr with
  | refused => exact h
  | rejected => exact h.withRoom
  | @pushed b =>
    have hlt := h.length_lt hpos
    obtain ⟨hgrown, -, hidle⟩ := h.withRoom
    rw [length, bytes_withRoom, ← length] at hidle
    refine ⟨hgrown, ?_, ?_⟩
    · rw [length_push]
      exact hlt
    · rw [length_push]
      exact hidle.trans (max_le_max le_rfl (Nat.add_le_add_right (Nat.le_succ _) _))

/-- A byte uses the room that was made for it. -/
theorem Used.push (h : Used first s) (hfits : s.length ≤ s.capacity) (b : UInt8) :
    Used first { s.withRoom with bytes := s.bytes.push b } := by
  have hcapacity := capacity_withRoom s
  rw [Used, length_push]
  dsimp only
  rw [hcapacity, increment_withRoom]
  -- room that was made just now is one increment, and its first place is taken by the byte
  rcases h with h | h
  · split
    · exact .inr (by omega)
    · exact .inl h
  · split <;> exact .inr (by omega)

/-- Room that goes with the bytes, and that is used, is what they need. -/
theorem Roomy.capacity_eq (h : Roomy first s) (hused : Used first s) (hpos : 0 < s.increment) :
    s.capacity = first + s.increment * ((s.length - first) ⌈/⌉ s.increment) := by
  obtain ⟨times, hgrown⟩ := h.grown
  have hfits := h.fits
  have hle : (s.length - first) ⌈/⌉ s.increment ≤ times := by
    rw [ceilDiv_le_iff_le_mul hpos]
    omega
  have hge : times ≤ (s.length - first) ⌈/⌉ s.increment := by
    -- if fewer increments held the bytes, the last one would not be in use
    by_contra hlt
    obtain ⟨fewer, rfl⟩ : ∃ fewer, times = fewer + 1 :=
      Nat.exists_eq_succ_of_ne_zero fun h0 => hlt (h0 ▸ Nat.zero_le _)
    have hfew : s.length - first ≤ s.increment * fewer :=
      (ceilDiv_le_iff_le_mul hpos).mp (Nat.le_of_lt_succ (not_le.mp hlt))
    rw [Nat.mul_succ] at hgrown
    rcases hused with hused | hused <;> omega
  rw [hgrown, le_antisymm hle hge]

/-! ## Any calls -/

/-- Calls one after the other, and their answers, for any kind of buffer. -/
def runWith {σ : Type} (call : σ → Call → σ × Option AppendFault) (s : σ) :
    List Call → σ × List (Option AppendFault)
  | [] => (s, [])
  | c :: calls =>
    let r := call s c
    let rest := runWith call r.1 calls
    (rest.1, r.2 :: rest.2)

/-- If one kind of buffer shows what calls do to another, it does so for any number of calls. -/
theorem runWith_map {σ τ : Type} {call : σ → Call → σ × Option AppendFault}
    {call' : τ → Call → τ × Option AppendFault} (f : σ → τ)
    (h : ∀ s c, call' (f s) c = (call s c).map f id) (s : σ) (calls : List Call) :
    runWith call' (f s) calls = (runWith call s calls).map f id := by
  induction calls generalizing s with
  | nil => rfl
  | cons c calls ih =>
    rw [runWith, runWith, h]
    dsimp only [Prod.map]
    rw [ih]
    rfl

/-- Calls one after the other, and their answers. -/
def run (s : ByteSink) (calls : List Call) : ByteSink × List (Option AppendFault) :=
  runWith call s calls

/-- The bytes of those calls that were answered without a fault. -/
def accepted (calls : List Call) (faults : List (Option AppendFault)) : List UInt8 :=
  (calls.zip faults).filterMap fun p => p.1.accepted? p.2

theorem run_cons (s : ByteSink) (c : Call) (calls : List Call) :
    s.run (c :: calls) =
      (((s.call c).1.run calls).1, (s.call c).2 :: ((s.call c).1.run calls).2) := rfl

theorem accepted_cons (c : Call) (calls : List Call) (fault : Option AppendFault)
    (faults : List (Option AppendFault)) :
    accepted (c :: calls) (fault :: faults) =
      (c.accepted? fault).toList ++ accepted calls faults := by
  rw [accepted, List.zip_cons_cons, List.filterMap_cons]
  dsimp only
  cases c.accepted? fault <;> rfl

theorem value_run (s : ByteSink) (calls : List Call) :
    (s.run calls).1.value = s.value ++ accepted calls (s.run calls).2 := by
  induction calls generalizing s with
  | nil => exact (List.append_nil _).symm
  | cons c calls ih =>
    rw [run_cons, accepted_cons, ih, (answers_call s c).value_eq, List.append_assoc]

theorem increment_run (s : ByteSink) (calls : List Call) :
    (s.run calls).1.increment = s.increment := by
  induction calls generalizing s with
  | nil => rfl
  | cons c calls ih => rw [run_cons, ih, (answers_call s c).increment_eq]

theorem Roomy.run (h : Roomy first s) (hpos : 0 < s.increment) (calls : List Call) :
    Roomy first (s.run calls).1 := by
  induction calls generalizing s with
  | nil => exact h
  | cons c calls ih =>
    have hr := answers_call s c
    exact ih (h.answers hpos hr) (hr.increment_eq ▸ hpos)

/-- Calls that have a byte each, where nothing keeps the buffer from growing, add their bytes and use
    the room that is made for them. -/
theorem Used.run {calls : List Call} (h : Used first s) (hroomy : Roomy first s)
    (hpos : 0 < s.increment)
    (hcalls : ∀ c ∈ calls, c.canGrow = true ∧ 0 ≤ c.number ∧ c.number ≤ 255) :
    Used first (s.run calls).1 ∧ (s.run calls).1.length = s.length + calls.length := by
  induction calls generalizing s with
  | nil => exact ⟨h, rfl⟩
  | cons c calls ih =>
    obtain ⟨hgrow, h₀, h₁⟩ := hcalls c List.mem_cons_self
    have hr := answers_call s c
    have hpush := hr.of_byte (byte?_eq_some h₀ h₁) fun _ => hgrow
    have hused := h.push hroomy.fits (UInt8.ofNat c.number.toNat)
    have hnext := ih (s := (s.call c).1) (by rw [hpush]; exact hused) (hroomy.answers hpos hr)
      (hr.increment_eq ▸ hpos) fun c hc => hcalls c (List.mem_cons_of_mem _ hc)
    rw [run_cons]
    refine ⟨hnext.1, hnext.2.trans ?_⟩
    rw [hpush, length_push, List.length_cons]
    omega

/-! ## Cells that are there before they are used -/

/-- A buffer as a row of cells, of which those at the front are filled. -/
structure Cells where
  increment : Nat
  row : List UInt8
  filled : Nat
  increment_pos : 0 < increment
  filled_le : filled ≤ row.length

namespace Cells

/-- An empty buffer.  Its cells hold zeros. -/
def zeros (increment capacity : Nat) (h : 0 < increment) : Cells :=
  ⟨increment, List.replicate capacity 0, 0, h, Nat.zero_le _⟩

/-- Whether all cells are filled. -/
def isFull (s : Cells) : Bool := s.row.length ≤ s.filled

/-- The buffer with zeros in the cells of one more increment. -/
def grown (s : Cells) : Cells :=
  { s with
    row := s.row ++ List.replicate s.increment 0
    filled_le := by
      have := s.filled_le
      rw [List.length_append]
      omega }

/-- The buffer with a cell for the next byte. -/
def withRoom (s : Cells) : Cells := if s.isFull then s.grown else s

theorem filled_lt (s : Cells) : s.withRoom.filled < s.withRoom.row.length := by
  have hpos := s.increment_pos
  have hle := s.filled_le
  rw [withRoom]
  split
  · simp only [grown, List.length_append, List.length_replicate]
    omega
  · next h => simpa [isFull] using h

/-- The buffer with a byte in the next cell. -/
def put (s : Cells) (h : s.filled < s.row.length) (b : UInt8) : Cells :=
  { s with
    row := s.row.set s.filled b
    filled := s.filled + 1
    filled_le := by
      rw [List.length_set]
      exact h }

/-- Appends a byte, as `ByteSink.append` does. -/
def append (s : Cells) (canGrow : Bool) (n : Int) : Cells × Option AppendFault :=
  if s.isFull && !canGrow then (s, some .cannotGrow)
  else
    match byte? n with
    | some b => (s.withRoom.put s.filled_lt b, none)
    | none => (s.withRoom, some .notAByte)

/-- The bytes in the cells that are filled. -/
def value (s : Cells) : List UInt8 := s.row.take s.filled

/-- What a row of cells shows. -/
def shown (s : Cells) : ByteSink := ⟨s.increment, s.row.length, s.value.toArray⟩

/-- Calls one after the other, and their answers. -/
def run (s : Cells) (calls : List Call) : Cells × List (Option AppendFault) :=
  runWith (fun s c => s.append c.canGrow c.number) s calls

theorem shown_zeros (increment capacity : Nat) (h : 0 < increment) :
    (zeros increment capacity h).shown = ⟨increment, capacity, #[]⟩ := by
  simp [zeros, shown, value]

theorem length_value (s : Cells) : s.value.length = s.filled := by
  rw [value, List.length_take, Nat.min_eq_left s.filled_le]

theorem isFull_shown (s : Cells) : s.shown.isFull = s.isFull := by
  rw [ByteSink.isFull, ByteSink.length, shown, List.size_toArray, length_value, isFull]

theorem shown_withRoom (s : Cells) : s.withRoom.shown = s.shown.withRoom := by
  rw [ByteSink.withRoom, isFull_shown, withRoom]
  split
  · simp [grown, ByteSink.grown, shown, value, List.take_append_of_le_length s.filled_le]
  · rfl

theorem shown_put (s : Cells) (h : s.filled < s.row.length) (b : UInt8) :
    (s.put h b).shown = { s.shown with bytes := s.shown.bytes.push b } := by
  -- the cell behind the filled ones is the one that is written
  have htake : (s.row.set s.filled b).take (s.filled + 1) = s.row.take s.filled ++ [b] := by
    rw [List.take_add_one, List.take_set_of_le le_rfl, List.getElem?_set_self h, Option.toList_some]
  simp only [put, shown, value, htake, List.length_set, List.push_toArray]

/-- A row of cells answers like the buffer that it shows, and goes on showing it. -/
theorem shown_append (s : Cells) (canGrow : Bool) (n : Int) :
    s.shown.append canGrow n = (s.append canGrow n).map shown id := by
  rw [ByteSink.append, append, isFull_shown]
  split
  · rfl
  · dsimp only
    cases byte? n with
    | none => rw [← shown_withRoom]; rfl
    | some b =>
      dsimp only [Prod.map]
      rw [shown_put, shown_withRoom]
      rfl

theorem shown_run (s : Cells) (calls : List Call) :
    s.shown.run calls = (s.run calls).map shown id :=
  runWith_map shown (fun s c => shown_append s c.canGrow c.number) s calls

end Cells

/-! ## Runs -/

theorem create_of_pos {increment : Nat} (h : 0 < increment) (first : Nat) :
    create increment (some first) = .ok ⟨increment, first, #[]⟩ := by
  have hpos : ¬ (increment : Int) ≤ 0 := by omega
  have hfirst : ¬ (first : Int) < 0 := by omega
  simp only [create, Option.getD_some, if_neg hpos, if_neg hfirst, Int.toNat_natCast]

/-- What a buffer comes to, whatever numbers it is given and whenever it cannot grow.  It holds the
    bytes of those calls that had no fault, in their order.  Its room is the first capacity and
    whole increments, does not shrink, and is not larger than the first capacity or one increment
    more than the bytes.  A call that needs room while there is none to be had changes nothing; a
    number that is no byte leaves the bytes alone, but may have made room; a byte with room is
    appended.  If all calls have bytes and the buffer can grow in all of them, its room is what the
    bytes need.  A row of cells, filled from the front, answers alike and shows the same. -/
theorem run_create {increment : Nat} (hpos : 0 < increment) (first : Nat) :
    ∃ start, create increment (some first) = .ok start ∧ ∀ calls : List Call,
      let s := (start.run calls).1
      let faults := (start.run calls).2
      (s.value = accepted calls faults ∧ s.length = (accepted calls faults).length) ∧
      (∃ times, s.capacity = first + increment * times) ∧
      (s.length ≤ s.capacity ∧ s.capacity ≤ max first (s.length + increment)) ∧
      (∀ canGrow n, s.capacity ≤ (s.append canGrow n).1.capacity) ∧
      (∀ n, s.capacity ≤ s.length → s.append false n = (s, some .cannotGrow)) ∧
      (∀ canGrow n, n < 0 ∨ 255 < n →
        (s.append canGrow n).1.value = s.value ∧
        (s.append canGrow n).1.length = s.length ∧
        (s.append canGrow n).2 =
          some (if s.capacity ≤ s.length ∧ canGrow = false then .cannotGrow else .notAByte)) ∧
      (∀ canGrow n, 0 ≤ n → n ≤ 255 → (s.capacity ≤ s.length → canGrow = true) →
        (s.append canGrow n).1.value = s.value ++ [UInt8.ofNat n.toNat] ∧
        (s.append canGrow n).2 = none) ∧
      ((∀ c ∈ calls, c.canGrow = true ∧ 0 ≤ c.number ∧ c.number ≤ 255) →
        s.length = calls.length ∧
        s.capacity = first + increment * ((calls.length - first) ⌈/⌉ increment)) ∧
      ((Cells.zeros increment first hpos).run calls).map Cells.shown id = (s, faults) := by
  refine ⟨_, create_of_pos hpos first, fun calls => ?_⟩
  intro s faults
  have hstart : Roomy first ⟨increment, first, #[]⟩ :=
    ⟨⟨0, rfl⟩, Nat.zero_le _, le_max_left _ _⟩
  have hincrement : s.increment = increment := increment_run _ calls
  have hroomy : Roomy first s := hstart.run hpos calls
  have hvalue : s.value = accepted calls faults := value_run _ calls
  have hcells := Cells.shown_run (Cells.zeros increment first hpos) calls
  rw [Cells.shown_zeros] at hcells
  refine ⟨⟨hvalue, ?_⟩, hincrement ▸ hroomy.grown, ⟨hroomy.fits, hincrement ▸ hroomy.idle⟩,
    fun canGrow n => (answers_call s ⟨canGrow, n⟩).capacity_le, fun n hfull => ?_,
    fun canGrow n hn => ?_, fun canGrow n h₀ h₁ hroom => ?_, fun hcalls => ?_, hcells.symm⟩
  · rw [← hvalue]
    rfl
  · exact append_isFull (isFull_iff.mpr hfull)
  · obtain ⟨hsame, hfault⟩ := (answers_call s ⟨canGrow, n⟩).of_not_byte (byte?_eq_none_iff.mpr hn)
    exact ⟨hsame, congrArg List.length hsame, hfault⟩
  · have hpush := (answers_call s ⟨canGrow, n⟩).of_byte (byte?_eq_some h₀ h₁) hroom
    rw [call] at hpush
    dsimp only at hpush
    rw [hpush]
    exact ⟨Array.toList_push, rfl⟩
  · obtain ⟨hused, hlength⟩ := Used.run (s := ⟨increment, first, #[]⟩) (.inl rfl) hstart hpos hcalls
    have hcount : s.length = calls.length := hlength.trans (Nat.zero_add _)
    refine ⟨hcount, ?_⟩
    rw [hroomy.capacity_eq hused (hincrement ▸ hpos), hincrement, hcount]

/-- A buffer with room for three bytes: a number that is no byte comes in between, and the fourth
    byte when the buffer can no longer grow. -/
theorem run_create_refused :
    0 < 2 ∧ ∃ start s : ByteSink, create 2 (some 3) = .ok start ∧
      s = (start.run [⟨true, 1⟩, ⟨true, 256⟩, ⟨true, 2⟩, ⟨false, 3⟩, ⟨false, 4⟩]).1 ∧
      s.value = [1, 2, 3] ∧ s.append false 4 = (s, some .cannotGrow) ∧
      (s.append true (-1)).1.value = [1, 2, 3] ∧ (s.append true (-1)).2 = some .notAByte ∧
      (s.append true 4).1.value = [1, 2, 3, 4] := by
  obtain ⟨start, hstart, hruns⟩ := @run_create 2 (by decide) 3
  let calls : List Call := [⟨true, 1⟩, ⟨true, 256⟩, ⟨true, 2⟩, ⟨false, 3⟩, ⟨false, 4⟩]
  obtain ⟨⟨hvalue, -⟩, -, -, -, hrefused, hnot, hbyte, -⟩ := hruns calls
  obtain rfl : ⟨2, 3, #[]⟩ = start := Except.ok.inj hstart
  have haccepted : accepted calls (run ⟨2, 3, #[]⟩ calls).2 = [1, 2, 3] := by decide
  have hfull : (run ⟨2, 3, #[]⟩ calls).1.capacity ≤ (run ⟨2, 3, #[]⟩ calls).1.length := by decide
  rw [haccepted] at hvalue
  obtain ⟨hsame, -, hfault⟩ := hnot true (-1) (by decide)
  obtain ⟨hpush, -⟩ := hbyte true 4 (by decide) (by decide) fun _ => rfl
  refine ⟨by decide, _, _, hstart, rfl, hvalue, hrefused 4 hfull, hsame.trans hvalue, ?_, ?_⟩
  · rw [hfault, if_neg (by simp)]
  · rw [hpush, hvalue]
    rfl

end ByteSink

end PropertyList
