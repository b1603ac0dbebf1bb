/-
  PropertyList.Proofs.Json.Nesting

  When JSON nests too deeply.  At every step the machine has as many open containers
  as lexemes opened and did not close, so it only refuses one more when there are
  too many open at once in the text.
-/
import PropertyList.Json.Reader
import PropertyList.Proofs.Value

namespace PropertyList.Json

/-- How many containers a lexeme opens. -/
def Lexeme.openings : Lexeme → Nat
  | .token .beginArray => 1
  | .token .beginObject => 1
  | _ => 0

/-- How many containers a lexeme closes. -/
def Lexeme.closings : Lexeme → Nat
  | .token .endArray => 1
  | .token .endObject => 1
  | _ => 0

/-- How many containers some lexemes open. -/
def openings (ls : List Located) : Nat := (ls.map fun l => l.lexeme.openings).sum

/-- How many containers some lexemes close. -/
def closings (ls : List Located) : Nat := (ls.map fun l => l.lexeme.closings).sum

section

variable {stack : List Frame} {l : Located} {st st' : State}

theorem length_deliver (v : Value) : (State.deliver stack v).stack.length = stack.length := by
  cases stack with
  | nil => rfl
  | cons frame rest => cases frame <;> rfl

/-- The containers that are open after a step: those before it, and what the lexeme opens or
    closes. -/
def Counts (stack : List Frame) (l : Located) (st' : State) : Prop :=
  st'.stack.length + l.lexeme.closings = stack.length + l.lexeme.openings

theorem counts_takeValue (h : takeValue stack l = .ok st') : Counts stack l st' := by
  unfold takeValue at h
  rw [Counts]
  split at h
  case h_6 hl =>
    rw [State.opened] at h
    split at h
    · obtain rfl := Except.ok.inj h
      rw [hl]
      rfl
    · cases h
  case h_7 hl =>
    rw [State.opened] at h
    split at h
    · obtain rfl := Except.ok.inj h
      rw [hl]
      rfl
    · cases h
  all_goals
    next hl =>
      cases h <;> rw [length_deliver, hl] <;> rfl

theorem counts_takeKey (h : takeKey stack l = .ok st') : Counts stack l st' := by
  unfold takeKey at h
  split at h
  · next hl =>
    obtain rfl := Except.ok.inj h
    rw [Counts, hl]
    rfl
  · cases h
  · cases h

/-- A lexeme that closes a container delivers it to the one around it. -/
theorem counts_close {rest : List Frame} {frame : Frame} {v : Value} {t : Token}
    (h : Except.ok (State.deliver rest v) = (.ok st' : Except Halt State))
    (hstack : stack = frame :: rest) (hl : l.lexeme = .token t)
    (ht : t = .endArray ∨ t = .endObject) : Counts stack l st' := by
  obtain rfl := Except.ok.inj h
  rw [Counts, length_deliver, hstack, hl]
  rcases ht with rfl | rfl <;> rfl

/-- A step keeps count of the open containers. -/
theorem counts_step (h : st.step l = .ok st') : Counts st.stack l st' := by
  unfold State.step at h
  split at h
  · cases h
  · exact counts_takeValue h
  · split at h
    · next hl hstack => exact counts_close h hstack hl (.inl rfl)
    · exact counts_takeValue h
  · exact counts_takeKey h
  · split at h
    · next hl hstack => exact counts_close h hstack hl (.inr rfl)
    · exact counts_takeKey h
  · split at h
    · next hl =>
      obtain rfl := Except.ok.inj h
      rw [Counts, hl]
      rfl
    · cases h
  -- behind a value: a comma goes on, and an end closes the container
  · split at h
    · next hl hstack =>
      obtain rfl := Except.ok.inj h
      rw [Counts, hl]
      rfl
    · next hl hstack =>
      obtain rfl := Except.ok.inj h
      rw [Counts, hl]
      rfl
    · next hl hstack => exact counts_close h hstack hl (.inl rfl)
    · next hl hstack => exact counts_close h hstack hl (.inr rfl)
    · cases h

/-- A step is only too deep at a lexeme that opens one container too many. -/
theorem full_of_takeValue (h : takeValue stack l = .error .tooDeep) :
    l.lexeme.openings = 1 ∧ depthLimit ≤ stack.length := by
  unfold takeValue at h
  split at h
  case h_6 hl =>
    rw [State.opened] at h
    split at h
    · cases h
    · next hfull => exact ⟨by rw [hl]; rfl, not_lt.mp hfull⟩
  case h_7 hl =>
    rw [State.opened] at h
    split at h
    · cases h
    · next hfull => exact ⟨by rw [hl]; rfl, not_lt.mp hfull⟩
  case h_11 fault hl => cases fault <;> cases h
  all_goals cases h

theorem takeKey_ne_tooDeep : takeKey stack l ≠ .error .tooDeep := by
  intro h
  unfold takeKey at h
  split at h
  · cases h
  · next fault _ => cases fault <;> cases h
  · cases h

theorem full_of_step (h : st.step l = .error .tooDeep) :
    l.lexeme.openings = 1 ∧ depthLimit ≤ st.stack.length := by
  unfold State.step at h
  split at h
  · cases h
  · exact full_of_takeValue h
  · split at h
    · cases h
    · exact full_of_takeValue h
  · exact absurd h takeKey_ne_tooDeep
  · split at h
    · cases h
    · exact absurd h takeKey_ne_tooDeep
  · split at h <;> cases h
  · split at h <;> cases h

/-- A run is only too deep where too many containers are open at once. -/
theorem exists_of_run {ls : List Located} (h : st.run ls = .error .tooDeep) :
    ∃ before after, ls = before ++ after ∧
      depthLimit + 1 + closings before ≤ st.stack.length + openings before := by
  induction ls generalizing st with
  | nil =>
    rw [State.run, State.finish] at h
    split at h <;> cases h
  | cons l ls ih =>
    rw [State.run] at h
    cases hstep : st.step l with
    | error e =>
      rw [hstep] at h
      obtain rfl := Except.error.inj h
      -- the bracket at which the run stops is the one that is too many
      obtain ⟨hopens, hfull⟩ := full_of_step hstep
      have hcloses : l.lexeme.closings = 0 := by
        unfold Lexeme.openings at hopens
        split at hopens
        · next hl => rw [hl]; rfl
        · next hl => rw [hl]; rfl
        · cases hopens
      refine ⟨[l], ls, rfl, ?_⟩
      simp only [openings, closings, List.map_cons, List.map_nil, List.sum_singleton, hopens,
        hcloses]
      omega
    | ok st' =>
      rw [hstep] at h
      obtain ⟨before, after, rfl, hcount⟩ := ih h
      have hcounts := counts_step hstep
      rw [Counts] at hcounts
      refine ⟨l :: before, after, rfl, ?_⟩
      simp only [openings, closings, List.map_cons, List.sum_cons] at hcount ⊢
      omega

end

/-- At least `n` containers are open at once somewhere in the text of some bytes. -/
def Nests (n : Nat) (bytes : List UInt8) : Prop :=
  ∃ text before after, decodeText? bytes = some text ∧
    lexemes (text.length + 1) [] text = before ++ after ∧ n + closings before ≤ openings before

/-- JSON is only too deep if more containers are open at once than the reader has room for. -/
theorem nests_of_read {bytes : List UInt8} (h : read bytes = .error .tooDeep) :
    Nests (depthLimit + 1) bytes := by
  rw [read] at h
  split at h
  · cases h
  next text htext =>
  rw [readText] at h
  split at h
  · cases h
  · cases h
  · cases h
  · cases h
  next hrun =>
  obtain ⟨before, after, hlexemes, hcount⟩ := exists_of_run hrun
  refine ⟨text, before, after, htext, hlexemes, ?_⟩
  rwa [List.length_nil, Nat.zero_add] at hcount

end PropertyList.Json
