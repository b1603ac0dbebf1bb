/-
  PropertyList.Proofs.Draining

  Reading a stream to its end, one byte at a time.  Every read has a position: it fails
  there, finds the end, or gives a byte for the buffer.  What comes out is all the bytes
  or a failure, never some of the bytes, and the size of the buffer does not matter.
-/
import PropertyList.Proofs.ByteSink
import PropertyList.Proofs.Input

namespace PropertyList

/-! ## One read -/

/-- What a read of one byte gives that has some number of bytes in front of it. -/
def ByteStream.readAt (s : ByteStream) (position : Nat) : Except OsError (Option UInt8) :=
  match s.failure with
  | some (n, e) => if n ≤ position then .error e else .ok s.bytes[position]?
  | none => .ok s.bytes[position]?

variable {stream : ByteStream} {position n : Nat} {e : OsError} {b : UInt8}

theorem ByteStream.lt_length_of_readAt (h : stream.readAt position = .ok (some b)) :
    position < stream.bytes.length := by
  have hget : stream.bytes[position]? = some b := by
    rw [readAt] at h
    split at h
    · split at h
      · cases h
      · exact Except.ok.inj h
    · exact Except.ok.inj h
  exact (List.getElem?_eq_some_iff.mp hget).1

theorem ByteStream.readAt_of_le (h : stream.failure = some (n, e)) (hn : n ≤ position) :
    stream.readAt position = .error e := by
  rw [readAt, h]
  exact if_pos hn

theorem ByteStream.readAt_of_lt (h : stream.failure = some (n, e)) (hn : position < n) :
    stream.readAt position = .ok stream.bytes[position]? := by
  rw [readAt, h]
  exact if_neg (Nat.not_le.mpr hn)

/-- A stream that can be read to its end, and also to where the end is found. -/
def ByteStream.Ends (s : ByteStream) : Prop :=
  ∀ n e, s.failure = some (n, e) → s.bytes.length < n

theorem ByteStream.Ends.readAt (h : stream.Ends) (hposition : position ≤ stream.bytes.length) :
    stream.readAt position = .ok stream.bytes[position]? := by
  cases hfailure : stream.failure with
  | none => rw [ByteStream.readAt, hfailure]
  | some failure => exact readAt_of_lt hfailure (hposition.trans_lt (h _ _ hfailure))

theorem ByteStream.Ends.complete (h : stream.Ends) : stream.complete? = some stream.bytes := by
  rw [complete?]
  cases hfailure : stream.failure with
  | none => rfl
  | some failure => exact if_neg (Nat.not_le.mpr (h _ _ hfailure))

theorem ByteStream.ends_or_fails (s : ByteStream) :
    s.Ends ∨ ∃ n e, s.failure = some (n, e) ∧ n ≤ s.bytes.length := by
  rw [Ends]
  by_contra h
  obtain ⟨hends, hfails⟩ := not_or.mp h
  exact hends fun n e hfailure => Nat.not_le.mp fun hle => hfails ⟨n, e, hfailure, hle⟩

/-! ## One read after the other -/

/-- What is logged about a buffer that takes a byte. -/
def growthLog (s : ByteSink) (b : UInt8) : List LogRecord :=
  if s.isFull then
    [inputRecord s!"Grew input buffer to {(s.append true b.toNat).1.capacity} bytes"]
  else []

/-- Reads byte after byte into a row of cells, until a read fails or finds the end. -/
def drainInto (stream : ByteStream) (position : Nat) (buffer : ByteSink.Cells) :
    Logged (Except OsError ByteSink.Cells) :=
  match h : stream.readAt position with
  | .error e => ([], .error e)
  | .ok none => ([], .ok buffer)
  | .ok (some b) =>
    have := ByteStream.lt_length_of_readAt h
    let (log, result) := drainInto stream (position + 1) (buffer.append true b.toNat).1
    (growthLog buffer.shown b ++ log, result)
termination_by stream.bytes.length - position

/-- The payload of a stream that is read to its end, if there are enough bytes. -/
def drained (bufferSize : Nat) (hpos : 0 < bufferSize) (stream : ByteStream) (source : String) :
    Logged (Except InputFailure Payload) :=
  match drainInto stream 0 (.zeros bufferSize bufferSize hpos) with
  | (log, .error e) => (log, .error (.readFailed source e))
  | (log, .ok buffer) =>
    let (more, result) := sized source buffer.value
    (log ++ more, result)

/-! ## What comes out -/

theorem reverse_growthLog (s : ByteSink) (b : UInt8) :
    (growthLog s b).reverse = growthLog s b := by
  rw [growthLog]
  split <;> rfl

theorem fill_log (s : ByteSink) (log : List LogRecord) (bytes : List UInt8) :
    fill s log bytes = ((fill s [] bytes).1 ++ log, (fill s [] bytes).2) := by
  induction bytes generalizing s log with
  | nil => rfl
  | cons b rest ih =>
    rw [fill, fill]
    split
    · rw [ih, ih _ [_], List.append_assoc]
      rfl
    · exact ih _ log

theorem fill_cons (s : ByteSink) (b : UInt8) (rest : List UInt8) :
    fill s [] (b :: rest) =
      ((fill (s.append true b.toNat).1 [] rest).1 ++ growthLog s b,
        (fill (s.append true b.toNat).1 [] rest).2) := by
  rw [fill, fill_log]
  rfl

theorem drainInto_of_error (h : stream.readAt position = .error e) (buffer : ByteSink.Cells) :
    drainInto stream position buffer = ([], .error e) := by
  rw [drainInto]
  split <;> simp_all

theorem drainInto_of_end (h : stream.readAt position = .ok none) (buffer : ByteSink.Cells) :
    drainInto stream position buffer = ([], .ok buffer) := by
  rw [drainInto]
  split <;> simp_all

theorem drainInto_of_byte (h : stream.readAt position = .ok (some b)) (buffer : ByteSink.Cells) :
    drainInto stream position buffer =
      let r := drainInto stream (position + 1) (buffer.append true b.toNat).1
      (growthLog buffer.shown b ++ r.1, r.2) := by
  rw [drainInto]
  split <;> simp_all

theorem shown_append_fst (buffer : ByteSink.Cells) (b : UInt8) :
    (buffer.append true b.toNat).1.shown = (buffer.shown.append true b.toNat).1 :=
  (congrArg Prod.fst (buffer.shown_append true b.toNat)).symm

/-- As long as reads give bytes, the buffer takes them and nothing else happens. -/
theorem drainInto_bytes {bytes : List UInt8}
    (hbytes : ∀ i b, bytes[i]? = some b → stream.readAt i = .ok (some b))
    (hposition : position ≤ bytes.length) (buffer : ByteSink.Cells) :
    ∃ full : ByteSink.Cells, full.shown = (fill buffer.shown [] (bytes.drop position)).2 ∧
      drainInto stream position buffer =
        let r := drainInto stream bytes.length full
        ((fill buffer.shown [] (bytes.drop position)).1.reverse ++ r.1, r.2) := by
  generalize hleft : bytes.drop position = left
  -- on what is left to read; the row of cells goes along with what it shows
  induction left generalizing position buffer with
  | nil =>
    obtain rfl := le_antisymm hposition (List.drop_eq_nil_iff.mp hleft)
    exact ⟨buffer, rfl, rfl⟩
  | cons b rest ih =>
    have hget : bytes[position]? = some b := by
      rw [← List.head?_drop, hleft]
      rfl
    have hrest : bytes.drop (position + 1) = rest := by
      rw [← List.tail_drop, hleft]
      rfl
    have hlt := (List.getElem?_eq_some_iff.mp hget).1
    obtain ⟨full, hfull, hdrain⟩ := ih hlt (buffer.append true b.toNat).1 hrest
    rw [shown_append_fst] at hfull hdrain
    rw [fill_cons]
    refine ⟨full, hfull, ?_⟩
    rw [drainInto_of_byte (hbytes position b hget), hdrain, List.reverse_append, reverse_growthLog]
    simp only [List.append_assoc]

theorem sized_snd (source : String) (bytes : List UInt8) :
    (sized source bytes).2 =
      if bytes.length < 8 then .error (.tooSmall bytes.length) else .ok { bytes, source } := by
  rw [sized, minimumSize]
  split <;> rfl

/-- A row of cells that takes all reads up to some position shows what `fill` makes of them. -/
theorem drainInto_zeros {bufferSize : Nat} (hpos : 0 < bufferSize) {bytes : List UInt8}
    (hbytes : ∀ i b, bytes[i]? = some b → stream.readAt i = .ok (some b)) :
    let filled := fill ⟨bufferSize, bufferSize, #[]⟩ [] bytes
    ∃ full : ByteSink.Cells, full.value = filled.2.value ∧
      drainInto stream 0 (.zeros bufferSize bufferSize hpos) =
        let r := drainInto stream bytes.length full
        (filled.1.reverse ++ r.1, r.2) := by
  obtain ⟨full, hfull, hdrain⟩ :=
    drainInto_bytes hbytes (Nat.zero_le _) (.zeros bufferSize bufferSize hpos)
  rw [ByteSink.Cells.shown_zeros, List.drop_zero] at hfull hdrain
  exact ⟨full, hfull ▸ rfl, hdrain⟩

/-- A stream that fails gives nothing but the failure, whatever was read in front of it. -/
theorem readStream_of_failure {bufferSize : Nat} (h : stream.failure = some (n, e))
    (hn : n ≤ stream.bytes.length) (source : String) :
    readStream bufferSize stream source =
      ((fill ⟨bufferSize, bufferSize, #[]⟩ [] (stream.bytes.take n)).1.reverse,
        .error (.readFailed source e)) := by
  rw [readStream, h]
  exact if_pos hn

theorem drained_of_failure {bufferSize : Nat} (hpos : 0 < bufferSize)
    (h : stream.failure = some (n, e)) (hn : n ≤ stream.bytes.length) (source : String) :
    drained bufferSize hpos stream source = readStream bufferSize stream source := by
  have hlength : (stream.bytes.take n).length = n := by rw [List.length_take, Nat.min_eq_left hn]
  have hbytes : ∀ i b, (stream.bytes.take n)[i]? = some b → stream.readAt i = .ok (some b) := by
    intro i b hget
    have hlt : i < n := hlength ▸ (List.getElem?_eq_some_iff.mp hget).1
    rw [ByteStream.readAt_of_lt h hlt, ← List.getElem?_take_of_lt hlt, hget]
  obtain ⟨full, -, hdrain⟩ := drainInto_zeros hpos hbytes
  rw [hlength, drainInto_of_error (ByteStream.readAt_of_le h le_rfl)] at hdrain
  rw [drained, hdrain, readStream_of_failure h hn]
  dsimp only
  rw [List.append_nil]

theorem drained_of_ends {bufferSize : Nat} (hpos : 0 < bufferSize) (h : stream.Ends)
    (source : String) :
    drained bufferSize hpos stream source = readStream bufferSize stream source := by
  have hbytes : ∀ i b, stream.bytes[i]? = some b → stream.readAt i = .ok (some b) := by
    intro i b hget
    rw [h.readAt (List.getElem?_eq_some_iff.mp hget).1.le, hget]
  have hend : stream.readAt stream.bytes.length = .ok none := by
    rw [h.readAt le_rfl, List.getElem?_eq_none le_rfl]
  obtain ⟨full, hvalue, hdrain⟩ := drainInto_zeros hpos hbytes
  rw [drainInto_of_end hend] at hdrain
  rw [drained, hdrain, (readStream_eq_toEnd h.complete).2, readStream.toEnd]
  dsimp only
  rw [hvalue, List.append_nil]

/-- A stream that is read byte by byte gives what `readStream` gives, log and all. -/
theorem drained_eq_readStream {bufferSize : Nat} (hpos : 0 < bufferSize) (stream : ByteStream)
    (source : String) :
    drained bufferSize hpos stream source = readStream bufferSize stream source := by
  rcases stream.ends_or_fails with hends | ⟨n, e, hfailure, hle⟩
  · exact drained_of_ends hpos hends source
  · exact drained_of_failure hpos hfailure hle source

/-- Reading a stream never gives some of its bytes.  If a read fails, the one that would find the
    end included, that is what comes out; otherwise it is all the bytes, or the number of them if
    they are too few.  The size of the buffer makes no difference, and it is all the same whether
    the bytes are read one by one into cells that are there before they are used. -/
theorem readStream_drained {bufferSize : Nat} (hpos : 0 < bufferSize) (stream : ByteStream)
    (source : String) :
    let answer := (readStream bufferSize stream source).2
    (∀ n e, stream.failure = some (n, e) → n ≤ stream.bytes.length →
      answer = .error (.readFailed source e)) ∧
    ((∀ n e, stream.failure = some (n, e) → stream.bytes.length < n) →
      answer = if stream.bytes.length < 8 then .error (.tooSmall stream.bytes.length)
        else .ok { bytes := stream.bytes, source }) ∧
    (∀ other, 0 < other → (readStream other stream source).2 = answer) ∧
    drained bufferSize hpos stream source = readStream bufferSize stream source := by
  intro answer
  have hfails (k n : Nat) (e : OsError) (hfailure : stream.failure = some (n, e))
      (hle : n ≤ stream.bytes.length) :
      (readStream k stream source).2 = .error (.readFailed source e) := by
    rw [readStream_of_failure hfailure hle]
  have hends (k : Nat) (h : stream.Ends) :
      (readStream k stream source).2 = (sized source stream.bytes).2 :=
    readStream_of_complete h.complete
  refine ⟨hfails bufferSize, fun h => ?_, fun other _ => ?_, drained_eq_readStream hpos stream source⟩
  · rw [← sized_snd]
    exact hends bufferSize h
  · rcases stream.ends_or_fails with h | ⟨n, e, hfailure, hle⟩
    · exact (hends other h).trans (hends bufferSize h).symm
    · exact (hfails other n e hfailure hle).trans (hfails bufferSize n e hfailure hle).symm

/-- Nine bytes that need a buffer of four to grow twice: a read can fail where the end would be
    found, but not behind it. -/
theorem readStream_drained_nine :
    ∃ bytes : List UInt8, bytes = [1, 2, 3, 4, 5, 6, 7, 8, 9] ∧ 0 < 4 ∧
      (readStream 4 ⟨bytes, some (9, .bare)⟩ "-").2 = .error (.readFailed "-" .bare) ∧
      (readStream 4 ⟨bytes, some (10, .bare)⟩ "-").2 = .ok { bytes, source := "-" } ∧
      (readStream 4 ⟨bytes, none⟩ "-").2 = (readStream 1 ⟨bytes, none⟩ "-").2 ∧
      (readStream 4 ⟨bytes.take 7, none⟩ "-").2 = .error (.tooSmall 7) := by
  let bytes : List UInt8 := [1, 2, 3, 4, 5, 6, 7, 8, 9]
  have hpos : 0 < 4 := by decide
  obtain ⟨hfails, -⟩ := readStream_drained hpos ⟨bytes, some (9, .bare)⟩ "-"
  obtain ⟨-, hends, -⟩ := readStream_drained hpos ⟨bytes, some (10, .bare)⟩ "-"
  obtain ⟨-, -, hother, -⟩ := readStream_drained hpos ⟨bytes, none⟩ "-"
  obtain ⟨-, hsmall, -⟩ := readStream_drained hpos ⟨bytes.take 7, none⟩ "-"
  refine ⟨bytes, rfl, hpos, hfails 9 .bare rfl le_rfl, hends fun n e h => ?_,
    (hother 1 (by decide)).symm, hsmall fun n e h => ?_⟩
  · obtain rfl := (Prod.mk.inj (Option.some.inj h)).1
    decide
  · cases h

end PropertyList
