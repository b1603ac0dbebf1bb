/-
  PropertyList.Proofs.Json.Reading

  What is read from JSON is made of its lexemes.  The machine puts together what the
  tokens give, so whatever holds of the scalars that the tokens stand for holds of all
  scalars of the tree, and the keys of each dictionary are distinct texts.
-/
import PropertyList.Proofs.Json.Machine

namespace PropertyList.Json

variable {P : Scalar → Prop}

/-- The scalar that a lexeme stands for, if it stands for one, is of a kind. -/
def Lexeme.Gives (P : Scalar → Prop) : Lexeme → Prop
  | token .null => P .null
  | token (.bool b) => P (.bool b)
  | token (.int n) => P (.int n)
  | token (.real x) => P (.real x)
  | token (.text t) => P (.text t)
  | _ => True

/-- A tree of scalars of a kind, with distinct texts as keys. -/
abbrev IsMadeOf (P : Scalar → Prop) (v : Value) : Prop := v.Over P (TextKeys fun _ => True)

/-- What is known of a machine: the containers that are open, and the root. -/
structure State.Sound (P : Scalar → Prop) (st : State) : Prop where
  stack : ∀ f ∈ st.stack, IsMadeOf P f.value
  root : ∀ v, st.expected = .nothing v → IsMadeOf P v

variable {stack : List Frame} {l : Located} {st st' : State} {v : Value}

theorem sound_deliver (h : ∀ f ∈ stack, IsMadeOf P f.value) (hv : IsMadeOf P v) :
    (State.deliver stack v).Sound P := by
  cases stack with
  | nil =>
    refine ⟨List.forall_mem_nil _, ?_⟩
    rintro w ⟨⟩
    exact hv
  | cons f rest =>
    obtain ⟨hfirst, hrest⟩ := List.forall_mem_cons.mp h
    cases f with
    | array items =>
      refine ⟨List.forall_mem_cons.mpr ⟨hfirst.push hv, hrest⟩, ?_⟩
      rintro w ⟨⟩
    | object entries key =>
      refine ⟨List.forall_mem_cons.mpr ⟨hfirst.setEntry trivial hv, hrest⟩, ?_⟩
      rintro w ⟨⟩

theorem sound_takeValue (h : ∀ f ∈ stack, IsMadeOf P f.value) (hl : l.lexeme.Gives P)
    (hst : takeValue stack l = .ok st') : st'.Sound P := by
  have hopened {frame : Frame} {expected : Expected} (hframe : IsMadeOf P frame.value)
      (hexpected : ∀ v, expected ≠ .nothing v)
      (hst : State.opened stack frame expected = .ok st') : st'.Sound P := by
    rw [State.opened] at hst
    split at hst
    · obtain rfl := Except.ok.inj hst
      exact ⟨List.forall_mem_cons.mpr ⟨hframe, h⟩, fun v hv => absurd hv (hexpected v)⟩
    · cases hst
  have hdelivered {s : Scalar} (hs : P s)
      (hst : Except.ok (State.deliver stack (.scalar s)) = (.ok st' : Except Halt State)) :
      st'.Sound P := by
    obtain rfl := Except.ok.inj hst
    exact sound_deliver h (.scalar hs)
  unfold takeValue at hst
  split at hst
  case h_6 => exact hopened (.array (List.forall_mem_nil _)) (by rintro v ⟨⟩) hst
  case h_7 => exact hopened Value.over_dict_nil (by rintro v ⟨⟩) hst
  -- the other tokens are scalars, or have no place here
  all_goals first
    | cases hst; done
    | next htoken =>
      rw [htoken] at hl
      exact hdelivered hl hst

theorem sound_takeKey (h : ∀ f ∈ stack, IsMadeOf P f.value) (hst : takeKey stack l = .ok st') :
    st'.Sound P := by
  unfold takeKey at hst
  split at hst
  · obtain rfl := Except.ok.inj hst
    obtain ⟨hfirst, hrest⟩ := List.forall_mem_cons.mp h
    exact ⟨List.forall_mem_cons.mpr ⟨hfirst, hrest⟩, by rintro v ⟨⟩⟩
  · cases hst
  · cases hst

/-- A container that is closed is delivered to the one around it. -/
theorem State.Sound.close (h : st.Sound P) {f : Frame} {rest : List Frame}
    (hstack : st.stack = f :: rest)
    (hst : Except.ok (State.deliver rest f.value) = (.ok st' : Except Halt State)) :
    st'.Sound P := by
  obtain rfl := Except.ok.inj hst
  obtain ⟨hfirst, hrest⟩ := List.forall_mem_cons.mp (hstack ▸ h.stack)
  exact sound_deliver hrest hfirst

theorem State.Sound.step (h : st.Sound P) (hl : l.lexeme.Gives P) (hst : st.step l = .ok st') :
    st'.Sound P := by
  -- a step that only changes what is expected delivers no value
  have hgoes {expected : Expected} (hexpected : ∀ v, expected ≠ .nothing v)
      (hst : Except.ok ⟨st.stack, expected⟩ = (.ok st' : Except Halt State)) : st'.Sound P := by
    obtain rfl := Except.ok.inj hst
    exact ⟨h.stack, fun v hv => absurd hv (hexpected v)⟩
  unfold State.step at hst
  split at hst
  · cases hst
  · exact sound_takeValue h.stack hl hst
  · split at hst
    · next hstack => exact h.close hstack hst
    · exact sound_takeValue h.stack hl hst
  · exact sound_takeKey h.stack hst
  · split at hst
    · next hstack => exact h.close hstack hst
    · exact sound_takeKey h.stack hst
  · split at hst
    · exact hgoes (by rintro v ⟨⟩) hst
    · cases hst
  · split at hst
    · exact hgoes (by rintro v ⟨⟩) hst
    · exact hgoes (by rintro v ⟨⟩) hst
    · next hstack => exact h.close hstack hst
    · next hstack => exact h.close hstack hst
    · cases hst

theorem State.Sound.run {ls : List Located} (h : st.Sound P)
    (hls : ∀ l ∈ ls, l.lexeme.Gives P) (hv : st.run ls = .ok v) : IsMadeOf P v := by
  induction ls generalizing st with
  | nil =>
    rw [State.run, State.finish] at hv
    split at hv
    case h_1 w hexpected =>
      obtain rfl := Except.ok.inj hv
      exact h.root w hexpected
    all_goals cases hv
  | cons l ls ih =>
    obtain ⟨hl, hls⟩ := List.forall_mem_cons.mp hls
    rw [State.run] at hv
    split at hv
    · next hstep => exact ih (h.step hl hstep) hls hv
    · cases hv

/-- Bytes that are read have a text, of which the machine takes all lexemes. -/
theorem exists_run_of_read {bytes : List UInt8} (h : read bytes = .ok v) :
    ∃ text, decodeText? bytes = some text ∧
      State.run ⟨[], .value⟩ (lexemes (text.length + 1) [] text) = .ok v := by
  rw [read] at h
  split at h
  · cases h
  next text htext =>
  refine ⟨text, htext, ?_⟩
  rw [readText] at h
  split at h
  case h_1 hrun =>
    obtain rfl := Except.ok.inj h
    exact hrun
  all_goals cases h

/-- What lexemes are read as is made of the scalars that they stand for. -/
theorem isMadeOf_of_run {ls : List Located} (hls : ∀ l ∈ ls, l.lexeme.Gives P)
    (h : State.run ⟨[], .value⟩ ls = .ok v) : IsMadeOf P v := by
  have hstart : State.Sound P ⟨[], .value⟩ := ⟨List.forall_mem_nil _, by rintro v ⟨⟩⟩
  exact hstart.run hls h

end PropertyList.Json
