/-
  PropertyList.Proofs.Base64

  Bytes are read back from their base64 digits, however these are broken into
  lines and indented.  All lines but the last one hold whole groups, so only the
  last one can have padding, which ends the text.
-/
import PropertyList.Base64
import Mathlib.Data.Nat.ModEq

namespace PropertyList.Base64

/-! ## Single characters -/

theorem digit_ne_pad : ∀ n, n < 64 → digit n ≠ '=' := by decide

/-- A character that means nothing. -/
def IsIgnored (c : Char) : Prop := c ≠ '=' ∧ value? c = none

instance (c : Char) : Decidable (IsIgnored c) := by unfold IsIgnored; infer_instance

section Steps

variable {done : List UInt8} {s : List Char} {n : Nat}

theorem decodeFrom_ignored (p : Phase) {run : List Char} (h : ∀ c ∈ run, IsIgnored c) :
    decodeFrom p done (run ++ s) = decodeFrom p done s := by
  induction run with
  | nil => rfl
  | cons c run ih =>
    obtain ⟨hpad, hvalue⟩ := h c List.mem_cons_self
    rw [List.cons_append, decodeFrom, if_neg hpad]
    simp only [hvalue]
    exact ih fun c hc => h c (List.mem_cons_of_mem _ hc)

theorem decodeFrom_first (h : n < 64) :
    decodeFrom .start done (digit n :: s) = decodeFrom ⟨1, n, 0⟩ done s := by
  rw [decodeFrom, if_neg (digit_ne_pad n h)]
  simp only [value?_digit n h, Phase.start]

theorem decodeFrom_second {bits : Nat} (h : n < 64) :
    decodeFrom ⟨1, bits, 0⟩ done (digit n :: s) =
      decodeFrom ⟨2, n % 16, 0⟩ (UInt8.ofNat (bits * 4 + n / 16) :: done) s := by
  rw [decodeFrom, if_neg (digit_ne_pad n h)]
  simp only [value?_digit n h]

theorem decodeFrom_third {bits : Nat} (h : n < 64) :
    decodeFrom ⟨2, bits, 0⟩ done (digit n :: s) =
      decodeFrom ⟨3, n % 4, 0⟩ (UInt8.ofNat (bits * 16 + n / 4) :: done) s := by
  rw [decodeFrom, if_neg (digit_ne_pad n h)]
  simp only [value?_digit n h]

theorem decodeFrom_fourth {bits : Nat} (h : n < 64) :
    decodeFrom ⟨3, bits, 0⟩ done (digit n :: s) =
      decodeFrom .start (UInt8.ofNat (bits * 64 + n) :: done) s := by
  rw [decodeFrom, if_neg (digit_ne_pad n h)]
  simp only [value?_digit n h]

theorem decodeFrom_pad {p : Phase} (htaken : 2 ≤ p.taken) (h : p.taken + (p.pads + 1) < 4) :
    decodeFrom p done ('=' :: s) = decodeFrom { p with pads := p.pads + 1 } done s := by
  rw [decodeFrom, if_pos rfl, if_neg (Nat.not_lt.mpr htaken), if_neg (Nat.not_le.mpr h)]

/-- Padding that fills a group ends the text. -/
theorem decodeFrom_last_pad {p : Phase} (htaken : 2 ≤ p.taken) (h : 4 ≤ p.taken + (p.pads + 1)) :
    decodeFrom p done ('=' :: s) = some done.reverse := by
  rw [decodeFrom, if_pos rfl, if_neg (Nat.not_lt.mpr htaken), if_pos h]

theorem ofNat_eq {b : UInt8} (h : n = b.toNat) : UInt8.ofNat n = b := by
  rw [h]
  exact UInt8.ofNat_toNat

/-! ## Groups -/

/-- The four digits of three bytes give these bytes. -/
theorem decodeFrom_group (a b c : UInt8) :
    decodeFrom .start done (encode [a, b, c] ++ s) = decodeFrom .start (c :: b :: a :: done) s := by
  have ha := a.toNat_lt
  have hb := b.toNat_lt
  have hc := c.toNat_lt
  have hfirst : UInt8.ofNat (a.toNat / 4 * 4 + (a.toNat % 4 * 16 + b.toNat / 16) / 16) = a :=
    ofNat_eq (by omega)
  have hsecond : UInt8.ofNat ((a.toNat % 4 * 16 + b.toNat / 16) % 16 * 16 +
      (b.toNat % 16 * 4 + c.toNat / 64) / 4) = b := ofNat_eq (by omega)
  have hthird : UInt8.ofNat ((b.toNat % 16 * 4 + c.toNat / 64) % 4 * 64 + c.toNat % 64) = c :=
    ofNat_eq (by omega)
  simp only [encode, List.cons_append, List.nil_append]
  rw [decodeFrom_first (by omega), decodeFrom_second (by omega), decodeFrom_third (by omega),
    decodeFrom_fourth (by omega), hfirst, hsecond, hthird]

theorem decodeFrom_one (a : UInt8) :
    decodeFrom .start done (encode [a] ++ s) = some (done.reverse ++ [a]) := by
  have ha := a.toNat_lt
  have hfirst : UInt8.ofNat (a.toNat / 4 * 4 + a.toNat % 4 * 16 / 16) = a := ofNat_eq (by omega)
  simp only [encode, List.cons_append, List.nil_append]
  rw [decodeFrom_first (by omega), decodeFrom_second (by omega), hfirst]
  -- the first of two padding characters does not fill the group yet
  rw [decodeFrom_pad (Nat.le_refl 2) (show 2 + 1 < 4 by decide),
    decodeFrom_last_pad (Nat.le_refl 2) (show 4 ≤ 2 + 2 by decide), List.reverse_cons]

theorem decodeFrom_two (a b : UInt8) :
    decodeFrom .start done (encode [a, b] ++ s) = some (done.reverse ++ [a, b]) := by
  have ha := a.toNat_lt
  have hb := b.toNat_lt
  have hfirst : UInt8.ofNat (a.toNat / 4 * 4 + (a.toNat % 4 * 16 + b.toNat / 16) / 16) = a :=
    ofNat_eq (by omega)
  have hsecond : UInt8.ofNat ((a.toNat % 4 * 16 + b.toNat / 16) % 16 * 16 +
      b.toNat % 16 * 4 / 4) = b := ofNat_eq (by omega)
  simp only [encode, List.cons_append, List.nil_append]
  rw [decodeFrom_first (by omega), decodeFrom_second (by omega), decodeFrom_third (by omega),
    hfirst, hsecond, decodeFrom_last_pad (show 2 ≤ 3 by decide) (show 4 ≤ 3 + 1 by decide),
    List.reverse_cons, List.reverse_cons, List.append_assoc]
  rfl

end Steps

theorem encode_group (a b c : UInt8) (rest : List UInt8) :
    encode (a :: b :: c :: rest) = encode [a, b, c] ++ encode rest := by
  simp [encode]

/-- Whole groups leave reading in front of the next group. -/
theorem decodeFrom_groups (bytes : List UInt8) (h : bytes.length % 3 = 0) (done : List UInt8)
    (s : List Char) :
    decodeFrom .start done (encode bytes ++ s) = decodeFrom .start (bytes.reverse ++ done) s := by
  induction bytes using encode.induct generalizing done with
  | case1 => rfl
  | case2 a => simp at h
  | case3 a b => simp at h
  | case4 a b c rest ih =>
    have hrest : rest.length % 3 = 0 := by
      simp only [List.length_cons] at h
      omega
    rw [encode_group, List.append_assoc, decodeFrom_group, ih hrest]
    simp

/-- Bytes are read back from their digits, where nothing but ignored characters follows. -/
theorem decodeFrom_encode (bytes done : List UInt8) {s : List Char} (hs : ∀ c ∈ s, IsIgnored c) :
    decodeFrom .start done (encode bytes ++ s) = some (done.reverse ++ bytes) := by
  induction bytes using encode.induct generalizing done with
  | case1 =>
    have hend : decodeFrom .start done (s ++ []) = decodeFrom .start done [] :=
      decodeFrom_ignored .start hs
    rw [List.append_nil] at hend
    rw [encode, List.nil_append, List.append_nil, hend]
    rfl
  | case2 a => exact decodeFrom_one a
  | case3 a b => exact decodeFrom_two a b
  | case4 a b c rest ih =>
    rw [encode_group, List.append_assoc, decodeFrom_group, ih]
    simp

/-! ## Lines -/

/-- Chunks of whole groups are read back, one line each, whatever is ignored between them. -/
theorem decodeFrom_chunks {size : Nat} (hsize : 0 < size) (hgroups : size % 3 = 0)
    {space : List Char} (hspace : ∀ c ∈ space, IsIgnored c) (fuel : Nat) (bytes : List UInt8)
    (hfuel : bytes.length ≤ fuel) (done : List UInt8) :
    decodeFrom .start done
      ((chunks size fuel bytes).flatMap (fun b => space ++ encode b) ++ space) =
      some (done.reverse ++ bytes) := by
  induction fuel generalizing bytes done with
  | zero =>
    obtain rfl := List.length_eq_zero_iff.mp (Nat.le_zero.mp hfuel)
    exact decodeFrom_encode [] done hspace
  | succ fuel ih =>
    cases bytes with
    | nil => exact decodeFrom_encode [] done hspace
    | cons b bs =>
      have hstep : chunks size (fuel + 1) (b :: bs) =
          (b :: bs).take size :: chunks size fuel ((b :: bs).drop size) := rfl
      rw [hstep, List.flatMap_cons, List.append_assoc, List.append_assoc,
        decodeFrom_ignored .start hspace]
      by_cases hshort : (b :: bs).length ≤ size
      · -- the last chunk
        have hnone : (b :: bs).drop size = [] := List.drop_eq_nil_of_le hshort
        have hchunks : chunks size fuel [] = [] := by cases fuel <;> rfl
        rw [hnone, hchunks, List.flatMap_nil, List.nil_append, List.take_of_length_le hshort]
        exact decodeFrom_encode (b :: bs) done hspace
      -- a chunk of whole groups leaves the reader where it was at the start
      · have hlen : ((b :: bs).take size).length = size := List.length_take_of_le (by omega)
        have hdrop : ((b :: bs).drop size).length ≤ fuel := by
          rw [List.length_drop]
          omega
        rw [decodeFrom_groups _ (by rw [hlen, hgroups]), ih _ hdrop, List.reverse_append,
          List.reverse_reverse, List.append_assoc, List.take_append_drop]

/-- Bytes are read back from lines of digits with ignored characters around them. -/
theorem decode?_encodeLines {width : Nat} (hwidth : 4 ≤ width) (bytes : List UInt8)
    {space : List Char} (hspace : ∀ c ∈ space, IsIgnored c) :
    decode? ((encodeLines width bytes).flatMap (fun cs => space ++ cs) ++ space) = some bytes := by
  rw [decode?, encodeLines, List.flatMap_map]
  exact decodeFrom_chunks (by omega) (Nat.mul_mod_left _ _) hspace _ bytes (Nat.le_refl _) []

/-- The characters of a line are digits and padding. -/
theorem mem_encode {bytes : List UInt8} {c : Char} (h : c ∈ encode bytes) :
    c = '=' ∨ ∃ n, n < 64 ∧ c = digit n := by
  induction bytes using encode.induct with
  | case1 => cases h
  -- one or two bytes at the end are padded to a group of four
  | case2 a =>
    have ha := a.toNat_lt
    simp only [encode, List.mem_cons, List.not_mem_nil, or_false] at h
    rcases h with rfl | rfl | rfl | rfl
    · exact .inr ⟨_, by omega, rfl⟩
    · exact .inr ⟨_, by omega, rfl⟩
    · exact .inl rfl
    · exact .inl rfl
  | case3 a b =>
    have ha := a.toNat_lt
    have hb := b.toNat_lt
    simp only [encode, List.mem_cons, List.not_mem_nil, or_false] at h
    rcases h with rfl | rfl | rfl | rfl
    · exact .inr ⟨_, by omega, rfl⟩
    · exact .inr ⟨_, by omega, rfl⟩
    · exact .inr ⟨_, by omega, rfl⟩
    · exact .inl rfl
  | case4 a b c rest ih =>
    have ha := a.toNat_lt
    have hb := b.toNat_lt
    have hc := c.toNat_lt
    simp only [encode, List.mem_cons] at h
    rcases h with rfl | rfl | rfl | rfl | h
    · exact .inr ⟨_, by omega, rfl⟩
    · exact .inr ⟨_, by omega, rfl⟩
    · exact .inr ⟨_, by omega, rfl⟩
    · exact .inr ⟨_, by omega, rfl⟩
    · exact ih h

end PropertyList.Base64
