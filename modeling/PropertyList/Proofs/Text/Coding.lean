/-
  PropertyList.Proofs.Text.Coding

  Text survives its encodings.  A code point written in UTF-8, and a character
  written in UTF-16, is the first one that is read from the bytes, and what
  stands behind it is left over; so a whole run is read back as it was written.
  `readAll_flatMap` and `decode?_flatMap` carry this from one item to a run, for
  any reader that takes items off the front.
-/
import PropertyList.Text.Utf8
import PropertyList.Text.Utf16
import PropertyList.Text.Reading
import Mathlib.Data.List.TakeDrop
import Mathlib.Tactic.Ring

namespace PropertyList

/-! ## Code points and their numbers -/

namespace CodePoint

theorem ofNat?_toNat (c : CodePoint) : ofNat? c.toNat = some c := by
  cases c with
  | scalar c =>
    -- a surrogate is no character, so it is found by its offset
    have h : (scalar c).toNat.isValidChar := c.valid
    rw [ofNat?, dif_pos h]
    rfl
  | surrogate s =>
    have hs := s.isLt
    have h : ¬ (surrogate s).toNat.isValidChar := by
      simp only [toNat, Nat.isValidChar]
      omega
    have h' : 0xD800 ≤ (surrogate s).toNat ∧ (surrogate s).toNat < 0xE000 := by
      simp only [toNat]
      omega
    have hoffset : (surrogate s).toNat - 0xD800 = s.val := by
      simp only [toNat]
      omega
    rw [ofNat?, dif_neg h, dif_pos h']
    exact congrArg (fun s => some (surrogate s)) (Fin.ext hoffset)

theorem toNat_of_ofNat? {n : Nat} {c : CodePoint} (h : ofNat? n = some c) : c.toNat = n := by
  by_cases hvalid : n.isValidChar
  · rw [ofNat?, dif_pos hvalid] at h
    obtain rfl := Option.some.inj h
    rfl
  rw [ofNat?, dif_neg hvalid] at h
  by_cases hsurrogate : 0xD800 ≤ n ∧ n < 0xE000
  · rw [dif_pos hsurrogate] at h
    obtain rfl := Option.some.inj h
    exact Nat.add_sub_cancel' hsurrogate.1
  · rw [dif_neg hsurrogate] at h
    cases h

theorem toNat_lt (c : CodePoint) : c.toNat < 0x110000 := by
  cases c with
  | scalar c =>
    have h : c.toNat.isValidChar := c.valid
    unfold Nat.isValidChar at h
    simp only [toNat]
    omega
  | surrogate s => simp only [toNat]; omega

theorem toNat_inj {a b : CodePoint} (h : a.toNat = b.toNat) : a = b := by
  have ha := a.ofNat?_toNat
  rw [h, b.ofNat?_toNat] at ha
  exact (Option.some.inj ha).symm

/-- The numbers of characters leave out those of the surrogates. -/
theorem toNat_scalar_lt_or (c : Char) :
    (scalar c).toNat < 0xD800 ∨ 0xE000 ≤ (scalar c).toNat := by
  have h : c.toNat.isValidChar := c.valid
  unfold Nat.isValidChar at h
  simp only [toNat]
  omega

end CodePoint

namespace Text

theorem chars?_eq_some {t : Text} {cs : List Char} (h : t.chars? = some cs) : t = ofChars cs := by
  induction t generalizing cs with
  | nil =>
    simp only [chars?, List.mapM_nil, Option.pure_def, Option.some.injEq] at h
    rw [← h]
    rfl
  | cons c t ih =>
    simp only [chars?, List.mapM_cons, Option.bind_eq_bind, Option.bind_eq_some_iff] at h
    obtain ⟨x, hx, ys, hys, hcs⟩ := h
    cases c with
    | scalar c =>
      simp only [CodePoint.char?, Option.some.injEq] at hx
      simp only [Option.pure_def, Option.some.injEq] at hcs
      rw [← hcs, ofChars_cons, ← ih hys, hx]
    | surrogate s => simp [CodePoint.char?] at hx

theorem length_ofChars (cs : List Char) : (ofChars cs).length = cs.length := by
  simp [ofChars]

end Text

/-! ## Runs of items -/

/-- What can be checked item by item holds of all items. -/
theorem forall_of_all {α : Type} {p : α → Prop} [DecidablePred p] {l : List α}
    (h : l.all (fun a => decide (p a)) = true) : ∀ a ∈ l, p a :=
  fun a ha => of_decide_eq_true (List.all_eq_true.mp h a ha)

/-- A run with a property, and behind it something without it. -/
theorem span_append {α : Type} {p : α → Bool} {run rest : List α} (h : ∀ a ∈ run, p a = true)
    (hrest : ∀ a ∈ rest.head?, p a = false) : (run ++ rest).span p = (run, rest) := by
  have hnil : rest.takeWhile p = [] ∧ rest.dropWhile p = rest := by
    cases rest with
    | nil => exact ⟨rfl, rfl⟩
    | cons a rest =>
      have ha := hrest a rfl
      simp [ha]
  rw [List.span_eq_takeWhile_dropWhile, List.takeWhile_append_of_pos h,
    List.dropWhile_append_of_pos h, hnil.1, hnil.2, List.append_nil]

section Runs

variable {α β : Type} {next? : List β → Option (α × List β)} {write : α → List β}

/-- A run of items is read as far as it goes. -/
theorem readAll_flatMap {items : List α} {rest : List β} {fuel : Nat}
    (hread : ∀ a ∈ items, ∀ s, next? (write a ++ s) = some (a, s))
    (hrest : next? rest = none) (hfuel : items.length ≤ fuel) (taken : List α) :
    readAll next? fuel taken (items.flatMap write ++ rest) = (taken.reverse ++ items, rest) := by
  induction items generalizing fuel taken with
  | nil =>
    cases fuel with
    | zero => simp [readAll]
    | succ fuel => simp [readAll, hrest]
  | cons a items ih =>
    cases fuel with
    | zero => simp at hfuel
    | succ fuel =>
      -- each item takes one unit of the fuel
      have ha := hread a List.mem_cons_self (items.flatMap write ++ rest)
      have hitems := ih (fun b hb => hread b (List.mem_cons_of_mem a hb))
        (Nat.le_of_succ_le_succ hfuel) (a :: taken)
      rw [List.flatMap_cons, List.append_assoc, readAll, ha]
      show readAll next? fuel (a :: taken) (items.flatMap write ++ rest) = _
      rw [hitems]
      simp

theorem length_le_length_flatMap {items : List α} (hwrite : ∀ a ∈ items, write a ≠ []) :
    items.length ≤ (items.flatMap write).length := by
  induction items with
  | nil => simp
  | cons a items ih =>
    have ha := List.length_pos_iff.mpr (hwrite a List.mem_cons_self)
    have hitems := ih fun b hb => hwrite b (List.mem_cons_of_mem a hb)
    simp only [List.flatMap_cons, List.length_append, List.length_cons]
    omega

/-- A run of items is read back from what was written. -/
theorem decode?_flatMap {items : List α}
    (hread : ∀ a ∈ items, ∀ s, next? (write a ++ s) = some (a, s))
    (hwrite : ∀ a ∈ items, write a ≠ []) (hnil : next? [] = none) :
    decode? next? (items.flatMap write) = some items := by
  have h := readAll_flatMap hread hnil (length_le_length_flatMap hwrite) []
  rw [List.append_nil] at h
  rw [decode?, h]
  rfl

end Runs

/-! ## UTF-8 -/

namespace Utf8

theorem trail?_trailByte (n : Nat) : trail? (trailByte n) = some (n % 64) := by
  have h : (trailByte n).toNat = 0x80 + n % 64 := by
    simp only [trailByte, UInt8.toNat_ofNat']
    omega
  simp only [trail?, h]
  rw [if_pos (by omega), Nat.add_sub_cancel_left]

/-- The code point that was written is the first one to be read. -/
theorem next?_encode (c : CodePoint) (rest : List UInt8) :
    next? (encode c ++ rest) = some (c, rest) := by
  have hc := c.ofNat?_toNat
  have hlt := c.toNat_lt
  generalize hn : c.toNat = n at hc hlt
  simp only [encode, encodeNat, hn]
  -- one case for each number of bytes
  split
  · have h : (UInt8.ofNat n).toNat = n := by rw [UInt8.toNat_ofNat']; omega
    simp only [List.cons_append, List.nil_append, next?, h]
    rw [if_pos (by omega)]
    rw [hc, Option.bind_eq_bind, Option.bind_some]
  split
  · have h : (UInt8.ofNat (0xC0 + n / 64)).toNat = 0xC0 + n / 64 := by
      rw [UInt8.toNat_ofNat']; omega
    have hv : (0xC0 + n / 64 - 0xC0) * 64 + n % 64 = n := by omega
    simp only [List.cons_append, List.nil_append, next?, h]
    rw [if_neg (by omega), if_neg (by omega), if_pos (by omega)]
    simp only [trail?_trailByte, Option.bind_eq_bind, Option.bind_some, hv, hc]
  split
  · have h : (UInt8.ofNat (0xE0 + n / 4096)).toNat = 0xE0 + n / 4096 := by
      rw [UInt8.toNat_ofNat']; omega
    have hv : (0xE0 + n / 4096 - 0xE0) * 4096 + n / 64 % 64 * 64 + n % 64 = n := by omega
    simp only [List.cons_append, List.nil_append, next?, h]
    rw [if_neg (by omega), if_neg (by omega), if_neg (by omega), if_pos (by omega)]
    rw [trail?_trailByte, trail?_trailByte, Option.bind_eq_bind, Option.bind_some,
      Option.bind_some, hv]
    rw [if_neg (by omega), hc, Option.bind_eq_bind, Option.bind_some]
  · have h : (UInt8.ofNat (0xF0 + n / 262144)).toNat = 0xF0 + n / 262144 := by
      rw [UInt8.toNat_ofNat']; omega
    have hv : (0xF0 + n / 262144 - 0xF0) * 262144 + n / 4096 % 64 * 4096 + n / 64 % 64 * 64 +
        n % 64 = n := by omega
    simp only [List.cons_append, List.nil_append, next?, h]
    rw [if_neg (by omega), if_neg (by omega), if_neg (by omega), if_neg (by omega),
      if_pos (by omega)]
    -- unfolding the comparison with a large number is slow, so each step is a rewriting
    rw [trail?_trailByte, trail?_trailByte, trail?_trailByte, Option.bind_eq_bind,
      Option.bind_some, Option.bind_some, Option.bind_some, hv]
    rw [if_neg (by omega), hc, Option.bind_eq_bind, Option.bind_some]

/-- An ASCII character is read from the byte with its number alone. -/
theorem exists_of_next?_lt {s t : List UInt8} {c : CodePoint} (h : next? s = some (c, t))
    (hc : c.toNat < 0x80) : ∃ b, s = b :: t ∧ b.toNat = c.toNat := by
  -- a code point of two bytes or more has a larger number, as no longer form is read
  unfold next? at h
  split at h
  · cases h
  next a s =>
  dsimp only at h
  split at h
  · obtain ⟨p, hp, h⟩ := Option.bind_eq_some_iff.mp h
    obtain ⟨rfl, rfl⟩ := Prod.mk.inj (Option.some.inj h)
    exact ⟨a, rfl, (CodePoint.toNat_of_ofNat? hp).symm⟩
  split at h
  · cases h
  split at h
  · split at h
    · obtain ⟨b, -, h⟩ := Option.bind_eq_some_iff.mp h
      obtain ⟨p, hp, h⟩ := Option.bind_eq_some_iff.mp h
      obtain ⟨rfl, rfl⟩ := Prod.mk.inj (Option.some.inj h)
      have hnat := CodePoint.toNat_of_ofNat? hp
      omega
    · cases h
  split at h
  · split at h
    · obtain ⟨b, -, h⟩ := Option.bind_eq_some_iff.mp h
      obtain ⟨d, -, h⟩ := Option.bind_eq_some_iff.mp h
      split at h
      · cases h
      obtain ⟨p, hp, h⟩ := Option.bind_eq_some_iff.mp h
      obtain ⟨rfl, rfl⟩ := Prod.mk.inj (Option.some.inj h)
      have hnat := CodePoint.toNat_of_ofNat? hp
      omega
    · cases h
  split at h
  · split at h
    · obtain ⟨b, -, h⟩ := Option.bind_eq_some_iff.mp h
      obtain ⟨d, -, h⟩ := Option.bind_eq_some_iff.mp h
      obtain ⟨e, -, h⟩ := Option.bind_eq_some_iff.mp h
      split at h
      · cases h
      obtain ⟨p, hp, h⟩ := Option.bind_eq_some_iff.mp h
      obtain ⟨rfl, rfl⟩ := Prod.mk.inj (Option.some.inj h)
      have hnat := CodePoint.toNat_of_ofNat? hp
      omega
    · cases h
  · cases h

theorem encodeNat_ne_nil (n : Nat) : encodeNat n ≠ [] := by
  unfold encodeNat
  split_ifs <;> simp

theorem encodeChars_append (s t : List Char) :
    encodeChars (s ++ t) = encodeChars s ++ encodeChars t := by
  simp [encodeChars]

theorem ofNat_ne_zero {n : Nat} (hpos : 0 < n) (hlt : n < 256) : UInt8.ofNat n ≠ 0 := by
  intro e
  have hnat : (UInt8.ofNat n).toNat = n := UInt8.toNat_ofNat_of_lt' hlt
  rw [e] at hnat
  exact absurd hnat (Nat.ne_of_lt hpos)

/-- Only the character numbered zero is written with a zero. -/
theorem ne_zero_of_mem_encodeNat {c : Char} (hc : 0 < c.toNat) :
    ∀ b ∈ encodeNat c.toNat, b ≠ 0 := by
  have hlt : c.toNat < 0x110000 := CodePoint.toNat_lt (.scalar c)
  have htrail (n : Nat) : trailByte n ≠ 0 := ofNat_ne_zero (by omega) (by omega)
  intro b hb
  unfold encodeNat at hb
  -- one to four bytes: the first has its own mark, and the others are trail bytes
  split_ifs at hb with h1 h2 h3
  · rw [List.mem_singleton.mp hb]
    exact ofNat_ne_zero hc (by omega)
  · rcases hb with _ | ⟨_, _ | ⟨_, hb⟩⟩
    · exact ofNat_ne_zero (by omega) (by omega)
    · exact htrail _
    · cases hb
  · rcases hb with _ | ⟨_, _ | ⟨_, _ | ⟨_, hb⟩⟩⟩
    · exact ofNat_ne_zero (by omega) (by omega)
    · exact htrail _
    · exact htrail _
    · cases hb
  · rcases hb with _ | ⟨_, _ | ⟨_, _ | ⟨_, _ | ⟨_, hb⟩⟩⟩⟩
    · exact ofNat_ne_zero (by omega) (by omega)
    · exact htrail _
    · exact htrail _
    · exact htrail _
    · cases hb

/-- The first two bytes of characters belong to the first two of them. -/
theorem ne_zero_of_mem_take_encodeChars {cs : List Char} (h : '\x00' ∉ cs.take 2) :
    ∀ b ∈ (encodeChars cs).take 2, b ≠ 0 := by
  have hfront : (encodeChars cs).take 2 <+: encodeChars (cs.take 2) := by
    have hsplit : encodeChars cs = encodeChars (cs.take 2) ++ encodeChars (cs.drop 2) := by
      rw [← encodeChars_append, List.take_append_drop]
    have hlength : (cs.take 2).length ≤ (encodeChars (cs.take 2)).length :=
      length_le_length_flatMap fun c _ => encodeNat_ne_nil c.toNat
    rw [List.length_take] at hlength
    by_cases hcs : 2 ≤ cs.length
    · rw [hsplit, List.take_append_of_le_length (by omega)]
      exact List.take_prefix _ _
    · have hall : cs.take 2 = cs := List.take_of_length_le (by omega)
      rw [hall]
      exact List.take_prefix _ _
  intro b hb
  obtain ⟨c, hc, hbc⟩ := List.mem_flatMap.mp (hfront.subset hb)
  refine ne_zero_of_mem_encodeNat (Nat.pos_of_ne_zero fun hzero => ?_) b hbc
  obtain rfl : c = '\x00' := Char.toNat_inj.mp hzero
  exact h hc

/-- Text without surrogates is read back from its bytes. -/
theorem decode?_encodeChars (cs : List Char) :
    decode? next? (encodeChars cs) = some (Text.ofChars cs) := by
  have h : encodeChars cs = (Text.ofChars cs).flatMap encode := by
    rw [encodeChars, Text.ofChars, List.flatMap_map]
    rfl
  rw [h]
  exact decode?_flatMap (fun c _ s => next?_encode c s) (fun c _ => encodeNat_ne_nil c.toNat) rfl

end Utf8

/-! ## UTF-16 -/

namespace Utf16

theorem unit_unitBytes (order : ByteOrder) {u : Nat} (h : u < 65536) (s : List UInt8) :
    ∃ a b, unitBytes order u ++ s = a :: b :: s ∧ unit order a b = u := by
  have hhigh : (UInt8.ofNat (u / 256)).toNat = u / 256 := by rw [UInt8.toNat_ofNat']; omega
  have hlow : (UInt8.ofNat (u % 256)).toNat = u % 256 := by rw [UInt8.toNat_ofNat']; omega
  cases order with
  | big =>
    refine ⟨_, _, rfl, ?_⟩
    simp only [unit, hhigh, hlow]
    omega
  | little =>
    refine ⟨_, _, rfl, ?_⟩
    simp only [unit, hhigh, hlow]
    omega

/-- The character that was written is the first one to be read. -/
theorem next?_encode (order : ByteOrder) (c : Char) (rest : List UInt8) :
    next? order (encode order (.scalar c) ++ rest) = some (.scalar c, rest) := by
  have hc := (CodePoint.scalar c).ofNat?_toNat
  have hlt := (CodePoint.scalar c).toNat_lt
  have hgap := CodePoint.toNat_scalar_lt_or c
  generalize hn : (CodePoint.scalar c).toNat = n at hc hlt hgap
  simp only [encode, units, hn]
  split
  · obtain ⟨a, b, hbytes, hunit⟩ := unit_unitBytes order (u := n) (by omega) rest
    have hhigh : isHigh n = false := by
      simp only [isHigh, Bool.and_eq_false_iff, decide_eq_false_iff_not]
      omega
    simp only [List.flatMap_cons, List.flatMap_nil, List.append_nil, hbytes]
    simp only [next?, hunit, hhigh, hc]
    rfl
  · -- the two halves of a surrogate pair
    generalize hu : 0xD800 + (n - 0x10000) / 1024 = u
    generalize hv : 0xDC00 + (n - 0x10000) % 1024 = v
    obtain ⟨c', d, hlow, hunit'⟩ := unit_unitBytes order (u := v) (by omega) rest
    obtain ⟨a, b, hhigh, hunit⟩ := unit_unitBytes order (u := u) (by omega)
      (unitBytes order v ++ rest)
    have hisHigh : isHigh u = true := by
      simp only [isHigh, Bool.and_eq_true, decide_eq_true_eq]
      omega
    have hisLow : isLow v = true := by
      simp only [isLow, Bool.and_eq_true, decide_eq_true_eq]
      omega
    have hjoined : joined u v = n := by
      simp only [joined]
      omega
    simp only [List.flatMap_cons, List.flatMap_nil, List.append_nil, List.append_assoc, hhigh]
    simp only [hlow, next?, hunit, hunit', hisHigh, hisLow, hjoined, hc]
    rfl

theorem encode_ne_nil (order : ByteOrder) (c : CodePoint) : encode order c ≠ [] := by
  unfold encode units
  cases order <;> split_ifs <;> simp [unitBytes]

/-- Text without surrogates is read back from its bytes. -/
theorem decode?_encodeChars (order : ByteOrder) (cs : List Char) :
    decode? (next? order) (encodeChars order cs) = some (Text.ofChars cs) := by
  have h : encodeChars order cs = (Text.ofChars cs).flatMap (encode order) := by
    rw [encodeChars, Text.ofChars, List.flatMap_map]
  rw [h]
  refine decode?_flatMap (fun c hc s => ?_) (fun c _ => encode_ne_nil order c) rfl
  simp only [Text.ofChars, List.mem_map] at hc
  obtain ⟨x, -, rfl⟩ := hc
  exact next?_encode order x s

/-- Every character takes whole units of two bytes. -/
theorem length_encodeChars_mod_two (order : ByteOrder) (cs : List Char) :
    (encodeChars order cs).length % 2 = 0 := by
  have hunits (us : List Nat) : (us.flatMap (unitBytes order)).length = 2 * us.length := by
    induction us with
    | nil => rfl
    | cons u us ih =>
      have hu : (unitBytes order u).length = 2 := by cases order <;> rfl
      rw [List.flatMap_cons, List.length_append, ih, hu, List.length_cons]
      omega
  induction cs with
  | nil => rfl
  | cons c cs ih =>
    simp only [encodeChars, List.flatMap_cons, List.length_append, encode, hunits] at ih ⊢
    omega

end Utf16

end PropertyList
