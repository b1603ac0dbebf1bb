/-
  PropertyList.Proofs.Input

  What reading gives: all the bytes that the source has, if they can be read to the
  end and are enough.  The size of the buffer and the way of reading do not show in
  them.
-/
import PropertyList.Input

namespace PropertyList

/-! ## Contents -/

/-- The bytes of a stream that does not fail on the way to its end. -/
def ByteStream.complete? (s : ByteStream) : Option (List UInt8) :=
  match s.failure with
  | some (n, _) => if n ≤ s.bytes.length then none else some s.bytes
  | none => some s.bytes

/-- The bytes of what was opened, if all of them can be read. -/
def Opened.content? : Opened → Option (List UInt8)
  | regular bytes => some bytes
  | stream s => s.complete?
  | failed _ => none

/-! ## The buffer -/

/-- What is in the buffer stays in front of what is appended, however often it grows. -/
theorem value_fill (s : ByteSink) (log : List LogRecord) (bytes : List UInt8) :
    (fill s log bytes).2.value = s.value ++ bytes := by
  induction bytes generalizing s log with
  | nil => exact (List.append_nil _).symm
  | cons b rest ih =>
    rw [fill, ih, ByteSink.value_append, List.append_assoc, List.singleton_append]

/-- A buffer that was empty holds what was appended. -/
theorem value_fill_empty (bufferSize : Nat) (log : List LogRecord) (bytes : List UInt8) :
    (fill ⟨bufferSize, bufferSize, #[]⟩ log bytes).2.value = bytes :=
  value_fill _ log bytes

/-! ## Reading -/

variable {bufferSize : Nat} {source path : String} {bytes : List UInt8}

theorem sized_of_le (h : minimumSize ≤ bytes.length) :
    (sized source bytes).2 = .ok { bytes, source } := by
  simp only [sized, if_neg (Nat.not_lt.mpr h)]

theorem sized_of_lt (h : bytes.length < minimumSize) :
    (sized source bytes).2 = .error (.tooSmall bytes.length) := by
  simp only [sized, if_pos h]

theorem readStream_eq_toEnd {s : ByteStream} (h : s.complete? = some bytes) :
    bytes = s.bytes ∧
      readStream bufferSize s source =
        readStream.toEnd s source ⟨bufferSize, bufferSize, #[]⟩ := by
  rw [ByteStream.complete?] at h
  rw [readStream]
  cases hfailure : s.failure with
  | none =>
    rw [hfailure] at h
    exact ⟨(Option.some.inj h).symm, rfl⟩
  | some failure =>
    obtain ⟨n, e⟩ := failure
    rw [hfailure] at h
    dsimp only at h ⊢
    split at h
    · cases h
    · next hreached => exact ⟨(Option.some.inj h).symm, if_neg hreached⟩

theorem readStream_of_complete {s : ByteStream} (h : s.complete? = some bytes) :
    (readStream bufferSize s source).2 = (sized source bytes).2 := by
  obtain ⟨rfl, hread⟩ := @readStream_eq_toEnd bufferSize source bytes s h
  rw [hread]
  simp only [readStream.toEnd, value_fill_empty]

theorem exists_readStream_eq_error {s : ByteStream} (h : s.complete? = none) :
    ∃ f, (readStream bufferSize s source).2 = .error f := by
  rw [ByteStream.complete?] at h
  rw [readStream]
  cases hfailure : s.failure with
  | none =>
    rw [hfailure] at h
    cases h
  | some failure =>
    obtain ⟨n, e⟩ := failure
    rw [hfailure] at h
    dsimp only at h ⊢
    split at h
    · next hreached =>
      rw [if_pos hreached]
      exact ⟨_, rfl⟩
    · cases h

/-- A file and anything else with the same bytes are read alike. -/
theorem readOpened_of_content {o : Opened} (h : o.content? = some bytes) :
    (readOpened bufferSize path o).2 = (sized path bytes).2 := by
  cases o with
  | regular content =>
    obtain rfl := Option.some.inj h
    rfl
  | stream s => exact readStream_of_complete h
  | failed e => cases h

theorem exists_readOpened_eq_error {o : Opened} (h : o.content? = none) :
    ∃ f, (readOpened bufferSize path o).2 = .error f := by
  cases o with
  | regular content => cases h
  | stream s => exact exists_readStream_eq_error h
  | failed e => exact ⟨_, rfl⟩

end PropertyList
