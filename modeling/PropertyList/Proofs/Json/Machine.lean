/-
  PropertyList.Proofs.Json.Machine

  The machine takes the tokens of a tree to that tree.  A container is a frame
  that its items fill one after the other; where commas and the closing token
  stand is the same for arrays and objects.
-/
import PropertyList.Json.Reader
import PropertyList.Json.Writer
import PropertyList.Proofs.Json.Lexeme
import PropertyList.Proofs.Value

namespace PropertyList.Json

/-! ## Runs -/

/-- Tokens that take the machine from one state to another, wherever they stand. -/
def Runs (ts : List Token) (st st' : State) : Prop :=
  ∀ ls rest : List Located, ls.map Located.lexeme = ts.map Lexeme.token →
    st.run (ls ++ rest) = st'.run rest

namespace Runs

variable {ts ts' : List Token} {st st' st'' : State}

theorem single {t : Token} (h : ∀ start, st.step ⟨.token t, start⟩ = .ok st') :
    Runs [t] st st' := by
  intro ls rest hls
  obtain ⟨⟨lexeme, start⟩, ls, rfl, rfl, hnil⟩ := List.map_eq_cons_iff.mp hls
  rw [List.map_eq_nil_iff.mp hnil, List.singleton_append, State.run, h start]

theorem append (h : Runs ts st st') (h' : Runs ts' st' st'') : Runs (ts ++ ts') st st'' := by
  intro ls rest hls
  rw [List.map_append] at hls
  obtain ⟨front, back, rfl, hfront, hback⟩ := List.map_eq_append_iff.mp hls
  rw [List.append_assoc, h front _ hfront, h' back rest hback]

theorem cons {t : Token} (h : ∀ start, st.step ⟨.token t, start⟩ = .ok st')
    (h' : Runs ts st' st'') : Runs (t :: ts) st st'' := (single h).append h'

end Runs

/-! ## Frames -/

namespace Frame

/-- What comes next in a frame that has just been opened. -/
def first : Frame → Expected
  | array _ => .valueOrEnd
  | object _ _ => .keyOrEnd

/-- What comes next behind a comma. -/
def next : Frame → Expected
  | array _ => .value
  | object _ _ => .key

/-- The token that closes a frame. -/
def last : Frame → Token
  | array _ => .endArray
  | object _ _ => .endObject

/-- The container that a frame becomes. -/
def value : Frame → Value
  | array items => .array items.reverse
  | object entries _ => .dict entries

variable (frame : Frame) (stack : List Frame) (start : Text)

theorem step_comma : State.step ⟨frame :: stack, .commaOrEnd⟩ ⟨.token .comma, start⟩ =
    .ok ⟨frame :: stack, frame.next⟩ := by
  cases frame <;> rfl

theorem step_last {e : Expected} (he : e = frame.first ∨ e = .commaOrEnd) :
    State.step ⟨frame :: stack, e⟩ ⟨.token frame.last, start⟩ =
      .ok (.deliver stack frame.value) := by
  rcases he with rfl | rfl <;> cases frame <;> rfl

end Frame

/-- Tokens that are taken as one more item of a frame. -/
def Fills (stack : List Frame) (ts : List Token) (before after : Frame) : Prop :=
  ∀ e, e = before.first ∨ e = before.next →
    Runs ts ⟨before :: stack, e⟩ ⟨after :: stack, .commaOrEnd⟩

/-- Items that fill a frame one after the other. -/
inductive FillsAll (stack : List Frame) : List (List Token) → Frame → Frame → Prop where
  | nil (frame : Frame) : FillsAll stack [] frame frame
  | cons {ts : List Token} {tss : List (List Token)} {before middle after : Frame}
      (h : Fills stack ts before middle) (h' : FillsAll stack tss middle after) :
      FillsAll stack (ts :: tss) before after

theorem FillsAll.runs {stack : List Frame} {tss : List (List Token)} {before after : Frame}
    (h : FillsAll stack tss before after) : ∀ e, e = before.first ∨ e = before.next ∧ tss ≠ [] →
      Runs ((tss.intersperse [.comma]).flatten ++ [after.last]) ⟨before :: stack, e⟩
        (.deliver stack after.value) := by
  induction h with
  | nil frame =>
    rintro e (he | ⟨-, hne⟩)
    · exact .single fun start => frame.step_last stack start (.inl he)
    · exact absurd rfl hne
  | @cons ts tss before middle after h h' ih =>
    intro e he
    have hitem := h e (he.imp_right And.left)
    -- the last item is followed by the end of the container, the others by a comma
    cases tss with
    | nil =>
      cases h'
      rw [List.intersperse_singleton, List.flatten_singleton]
      exact hitem.append (.single fun start => middle.step_last stack start (.inr rfl))
    | cons ts' tss =>
      rw [List.intersperse_cons_cons, List.flatten_cons, List.flatten_cons, List.append_assoc,
        List.append_assoc]
      exact hitem.append (.cons (fun start => middle.step_comma stack start)
        (ih _ (.inr ⟨rfl, List.cons_ne_nil _ _⟩)))

/-! ## Side by side -/

/-- Tokens behind which anything but a number may stand. -/
def Fits (ts : List Token) : Prop :=
  ∀ rest : List Token, rest.IsChain Token.Apart → (∀ t ∈ rest.head?, t.isNumber = false) →
    (ts ++ rest).IsChain Token.Apart

theorem isChain_cons_of_isNumber {t : Token} {ts : List Token} (ht : t.isNumber = false)
    (h : ts.IsChain Token.Apart) : (t :: ts).IsChain Token.Apart := by
  refine List.isChain_cons.mpr ⟨fun u _ hnumber => ?_, h⟩
  rw [ht] at hnumber
  cases hnumber

theorem fits_single (t : Token) : Fits [t] :=
  fun _ h hrest => List.isChain_cons.mpr ⟨fun u hu _ => hrest u hu, h⟩

theorem Fits.cons {t : Token} {ts : List Token} (ht : t.isNumber = false) (h : Fits ts) :
    Fits (t :: ts) := fun rest hchain hrest => isChain_cons_of_isNumber ht (h rest hchain hrest)

/-- Brackets and commas keep numbers apart. -/
theorem fits_bracketed {first last : Token} {tss : List (List Token)}
    (hfirst : first.isNumber = false) (hlast : last.isNumber = false) (h : ∀ ts ∈ tss, Fits ts) :
    Fits (bracketed first last tss) := by
  intro rest hchain _
  have hend : (last :: rest).IsChain Token.Apart := isChain_cons_of_isNumber hlast hchain
  have hhead : ∀ t ∈ (last :: rest).head?, t.isNumber = false := by
    intro t ht
    rw [← Option.some.inj ht]
    exact hlast
  -- each item is followed by a comma or the last bracket, and neither is a number
  have hitems : ((tss.intersperse [.comma]).flatten ++ (last :: rest)).IsChain Token.Apart := by
    induction tss with
    | nil => exact hend
    | cons ts tss ih =>
      have hts := h ts List.mem_cons_self
      cases tss with
      | nil =>
        rw [List.intersperse_singleton, List.flatten_singleton]
        exact hts _ hend hhead
      | cons ts' tss =>
        rw [List.intersperse_cons_cons, List.flatten_cons, List.flatten_cons, List.append_assoc,
          List.append_assoc]
        refine hts _ (isChain_cons_of_isNumber rfl (ih fun u hu => h u (.tail _ hu))) ?_
        intro t ht
        rw [← Option.some.inj ht]
        rfl
  rw [bracketed, List.cons_append, List.append_assoc]
  exact isChain_cons_of_isNumber hfirst hitems

/-! ## Containers -/

/-- Tokens that are read as a value, wherever one is expected and `levels` more containers may be
    opened. -/
structure Delivers (ts : List Token) (v : Value) (levels : Nat) : Prop where
  exact : ∀ t ∈ ts, t.IsExact
  fits : Fits ts
  runs (stack : List Frame) (e : Expected) (he : e = .valueOrEnd ∨ e = .value)
    (hdepth : stack.length + levels ≤ depthLimit) : Runs ts ⟨stack, e⟩ (.deliver stack v)

theorem Delivers.mono {ts : List Token} {v : Value} {levels levels' : Nat}
    (h : Delivers ts v levels) (hle : levels ≤ levels') : Delivers ts v levels' where
  exact := h.exact
  fits := h.fits
  runs := fun stack e he hdepth => h.runs stack e he (by omega)

/-- What holds of the brackets, of the comma and of all items holds of all tokens. -/
theorem forall_mem_bracketed {P : Token → Prop} {first last : Token} {tss : List (List Token)}
    (hfirst : P first) (hlast : P last) (hcomma : P .comma) (h : ∀ ts ∈ tss, ∀ t ∈ ts, P t) :
    ∀ t ∈ bracketed first last tss, P t := by
  have hitems : ∀ t ∈ (tss.intersperse [.comma]).flatten, P t := by
    induction tss with
    | nil => exact List.forall_mem_nil _
    | cons ts tss ih =>
      have hts := h ts List.mem_cons_self
      have hrest := ih fun u hu => h u (.tail _ hu)
      -- the last item has no comma behind it
      cases tss with
      | nil =>
        rw [List.intersperse_singleton, List.flatten_singleton]
        exact hts
      | cons ts' tss =>
        rw [List.intersperse_cons_cons, List.flatten_cons, List.flatten_cons]
        intro t ht
        rcases List.mem_append.mp ht with ht | ht
        · exact hts t ht
        · rcases List.mem_append.mp ht with ht | ht
          · rw [List.mem_singleton.mp ht]
            exact hcomma
          · exact hrest t ht
  intro t ht
  rcases List.mem_cons.mp ht with rfl | ht
  · exact hfirst
  · rcases List.mem_append.mp ht with ht | ht
    · exact hitems t ht
    · rw [List.mem_singleton.mp ht]
      exact hlast

/-- The first token of a container opens it. -/
theorem step_first {frame : Frame} {first : Token} {stack : List Frame} {e : Expected}
    (hfirst : (first, frame) = (.beginArray, .array []) ∨
      (first, frame) = (.beginObject, .object [] []))
    (he : e = .valueOrEnd ∨ e = .value) (start : Text) :
    State.step ⟨stack, e⟩ ⟨.token first, start⟩ = State.opened stack frame frame.first := by
  rcases hfirst with h | h <;> obtain ⟨rfl, rfl⟩ := Prod.mk.inj h <;> rcases he with rfl | rfl <;>
    rfl

theorem opened_of_lt {stack : List Frame} {frame : Frame} {e : Expected}
    (h : stack.length < depthLimit) : State.opened stack frame e = .ok ⟨frame :: stack, e⟩ :=
  if_pos h

theorem step_key {stack : List Frame} {entries : List (Scalar × Value)} {last : Text}
    {e : Expected} (he : e = .keyOrEnd ∨ e = .key) (t start : Text) :
    State.step ⟨.object entries last :: stack, e⟩ ⟨.token (.text t), start⟩ =
      .ok ⟨.object entries t :: stack, .colon⟩ := by
  rcases he with rfl | rfl <;> rfl

theorem step_colon (stack : List Frame) (start : Text) :
    State.step ⟨stack, .colon⟩ ⟨.token .colon, start⟩ = .ok ⟨stack, .value⟩ := by
  unfold State.step
  rw [if_pos rfl]

section Containers

variable {tss : List (List Token)} {levels : Nat}

theorem fillsAll_items {stack : List Frame} {vs : List Value}
    (h : List.Forall₂ (fun ts v => Delivers ts v levels) tss vs)
    (hdepth : stack.length + 1 + levels ≤ depthLimit) (items : List Value) :
    FillsAll stack tss (.array items) (.array (vs.reverse ++ items)) := by
  induction h generalizing items with
  | nil => exact .nil _
  | @cons ts v tss vs hv _ ih =>
    rw [List.reverse_cons, List.append_assoc]
    refine .cons (fun e he => ?_) (ih (v :: items))
    exact hv.runs (.array items :: stack) e he hdepth

theorem delivers_array {vs : List Value}
    (h : List.Forall₂ (fun ts v => Delivers ts v levels) tss vs) :
    Delivers (bracketed .beginArray .endArray tss) (.array vs) (levels + 1) := by
  have hitem {ts : List Token} (hts : ts ∈ tss) : ∃ v ∈ vs, Delivers ts v levels :=
    exists_of_forall₂_left h hts
  refine ⟨forall_mem_bracketed trivial trivial trivial fun ts hts => ?_,
    fits_bracketed rfl rfl fun ts hts => ?_, fun stack e he hdepth => ?_⟩
  · obtain ⟨v, -, hv⟩ := hitem hts
    exact hv.exact
  · obtain ⟨v, -, hv⟩ := hitem hts
    exact hv.fits
  · have hfills := @fillsAll_items _ _ stack _ h (by omega) []
    have hvalue : (Frame.array (vs.reverse ++ [])).value = .array vs := by
      rw [List.append_nil, Frame.value, List.reverse_reverse]
    rw [← hvalue]
    have hopened : stack.length < depthLimit := by omega
    exact .cons (fun start => (step_first (.inl rfl) he start).trans (opened_of_lt hopened))
      (hfills.runs _ (.inl rfl))

/-- Tokens that are read as an entry of a dictionary. -/
def DeliversEntry (levels : Nat) (ts : List Token) (e : Scalar × Value) : Prop :=
  ∃ (t : Text) (body : List Token), ts = .text t :: .colon :: body ∧ e.1 = .text t ∧
    Delivers body e.2 levels

/-- An entry is set among the others. -/
theorem DeliversEntry.fills {stack : List Frame} {ts : List Token} {e : Scalar × Value}
    (h : DeliversEntry levels ts e) (entries : List (Scalar × Value)) (key : Text)
    (hdepth : stack.length + 1 + levels ≤ depthLimit) :
    ∃ key', Fills stack ts (.object entries key)
      (.object (Value.setEntry entries e.1 e.2) key') := by
  obtain ⟨t, body, rfl, hkey, hbody⟩ := h
  refine ⟨t, fun expected hexpected => ?_⟩
  have hruns := hbody.runs (.object entries t :: stack) .value (.inr rfl) hdepth
  rw [State.deliver, ← hkey] at hruns
  exact .cons (step_key hexpected t) (.cons (step_colon _) hruns)

theorem fillsAll_entries {stack : List Frame} {es : List (Scalar × Value)}
    (h : List.Forall₂ (DeliversEntry levels) tss es)
    (hdepth : stack.length + 1 + levels ≤ depthLimit) (done : List (Scalar × Value)) (key : Text) :
    ∃ key', FillsAll stack tss (.object done key)
      (.object (es.foldl (fun es e => Value.setEntry es e.1 e.2) done) key') := by
  induction h generalizing done key with
  | nil => exact ⟨key, .nil _⟩
  | @cons ts e tss es he _ ih =>
    obtain ⟨middle, hfirst⟩ := he.fills done key hdepth
    obtain ⟨key', hrest⟩ := ih (Value.setEntry done e.1 e.2) middle
    exact ⟨key', .cons hfirst hrest⟩

/-- An object is read as the dictionary that results from its entries. -/
theorem delivers_dict {es : List (Scalar × Value)}
    (h : List.Forall₂ (DeliversEntry levels) tss es) :
    Delivers (bracketed .beginObject .endObject tss) (.ofEntries es) (levels + 1) := by
  have hitem {ts : List Token} (hts : ts ∈ tss) : ∃ e ∈ es, DeliversEntry levels ts e :=
    exists_of_forall₂_left h hts
  refine ⟨forall_mem_bracketed trivial trivial trivial fun ts hts => ?_,
    fits_bracketed rfl rfl fun ts hts => ?_, fun stack e he hdepth => ?_⟩
  · obtain ⟨e, -, t, body, rfl, -, hbody⟩ := hitem hts
    -- the first two tokens of an entry are its key and the colon
    rintro u (_ | ⟨_, _ | ⟨_, hu⟩⟩)
    · trivial
    · trivial
    · exact hbody.exact u hu
  · obtain ⟨e, -, t, body, rfl, -, hbody⟩ := hitem hts
    exact .cons rfl (.cons rfl hbody.fits)
  · obtain ⟨key, hfills⟩ := @fillsAll_entries _ _ stack _ h (by omega) [] []
    have hopened : stack.length < depthLimit := by omega
    exact .cons (fun start => (step_first (.inr rfl) he start).trans (opened_of_lt hopened))
      (hfills.runs _ (.inl rfl))

end Containers

/-! ## Trees -/

/-- A lexeme that does not close an array is taken as a value where one may stand. -/
theorem step_eq_takeValue {stack : List Frame} {e : Expected} {l : Located}
    (he : e = .valueOrEnd ∨ e = .value) (hl : l.lexeme ≠ .token .endArray) :
    State.step ⟨stack, e⟩ l = takeValue stack l := by
  rcases he with rfl | rfl
  · unfold State.step
    dsimp only
    split
    · next h => exact absurd h hl
    · rfl
  · rfl

/-- A single token that is taken as a scalar. -/
theorem delivers_token {t : Token} {s : Scalar} (hexact : t.IsExact) (hne : t ≠ .endArray)
    (htake : ∀ stack start, takeValue stack ⟨.token t, start⟩ = .ok (.deliver stack (.scalar s))) :
    Delivers [t] (.scalar s) 0 := by
  refine ⟨List.forall_mem_singleton.mpr hexact, fits_single t, fun stack e he _ =>
    .single fun start => ?_⟩
  rw [step_eq_takeValue he fun h => hne (Lexeme.token.inj h)]
  exact htake stack start

/-- The token of a scalar is read as the scalar. -/
theorem delivers_scalar {s : Scalar} {t : Token} (h : scalarToken s = .ok t) :
    Delivers [t] (.scalar s) 0 := by
  cases s with
  | null =>
    obtain rfl := Except.ok.inj h
    exact delivers_token trivial (by rintro ⟨⟩) fun _ _ => rfl
  | bool b =>
    obtain rfl := Except.ok.inj h
    exact delivers_token trivial (by rintro ⟨⟩) fun _ _ => rfl
  | int n =>
    rw [scalarToken] at h
    split_ifs at h with hprintable
    obtain rfl := Except.ok.inj h
    exact delivers_token hprintable (by rintro ⟨⟩) fun _ _ => rfl
  | real x =>
    rw [scalarToken] at h
    split_ifs at h with hfinite
    obtain rfl := Except.ok.inj h
    exact delivers_token hfinite (by rintro ⟨⟩) fun _ _ => rfl
  | text t =>
    obtain rfl := Except.ok.inj h
    exact delivers_token trivial (by rintro ⟨⟩) fun _ _ => rfl
  | data bytes => cases h
  | date t => cases h
  | uid n => cases h

section Trees

variable {sortKeys : Bool} {depth : Nat}

theorem forall₂_of_itemTokens {items : List Value} {tss : List (List Token)}
    (h : itemTokens sortKeys depth items = .ok tss) :
    List.Forall₂ (fun v ts => tokens sortKeys (depth + 1) v = .ok ts) items tss := by
  induction items generalizing tss with
  | nil =>
    rw [itemTokens] at h
    obtain rfl := Except.ok.inj h
    exact .nil
  | cons v vs ih =>
    rw [itemTokens] at h
    obtain ⟨first, hfirst, h⟩ := exists_of_bind_eq_ok h
    obtain ⟨rest, hrest, h⟩ := exists_of_bind_eq_ok h
    obtain rfl := Except.ok.inj h
    exact .cons hfirst (ih hrest)

theorem entryTokens_eq (sortKeys : Bool) (depth : Nat) (entries : List (Scalar × Value)) :
    entryTokens sortKeys depth entries =
      entries.map fun e => (e.1, tokens sortKeys (depth + 1) e.2) := by
  induction entries with
  | nil => rw [entryTokens, List.map_nil]
  | cons e es ih => rw [entryTokens, ih, List.map_cons]

theorem ordered_eq {α : Type} (entries : List (Scalar × α)) : ordered sortKeys entries =
    if sortKeys then
      (Scalar.sortByKey? (fun e => e.1) entries).elim (.error .unorderedKeys) .ok
    else .ok entries := by
  rw [ordered]
  cases Scalar.sortByKey? (fun e : Scalar × α => e.1) entries <;> rfl

theorem perm_of_ordered {α : Type} {entries listed : List (Scalar × α)}
    (h : ordered sortKeys entries = .ok listed) : listed.Perm entries := by
  cases sortKeys with
  | false =>
    obtain rfl := Except.ok.inj h
    exact .refl _
  | true =>
    rw [ordered_eq, if_pos rfl] at h
    cases hsort : Scalar.sortByKey? (fun e : Scalar × α => e.1) entries with
    | none =>
      rw [hsort] at h
      cases h
    | some es =>
      rw [hsort] at h
      obtain rfl := Except.ok.inj h
      exact Scalar.perm_of_sortByKey? hsort

/-- Entries are in the same order, whatever becomes of their values. -/
theorem ordered_map_snd {α β : Type} (m : α → β) (entries : List (Scalar × α)) :
    ordered sortKeys (entries.map fun e => (e.1, m e.2)) =
      (ordered sortKeys entries).map (List.map fun e => (e.1, m e.2)) := by
  rw [ordered_eq, ordered_eq]
  cases sortKeys with
  | false => rfl
  | true =>
    rw [if_pos rfl, if_pos rfl, Scalar.sortByKey?_map_snd]
    cases Scalar.sortByKey? (fun e : Scalar × α => e.1) entries <;> rfl

/-- Keys that are text are always in order. -/
theorem ordered_of_textKeys {Q : Text → Prop} {entries : List (Scalar × Value)}
    (h : TextKeys Q (entries.map (·.1))) :
    ordered sortKeys entries = .ok (Value.listedEntries sortKeys entries) := by
  rw [ordered_eq]
  cases sortKeys with
  | false => rfl
  | true =>
    rw [if_pos rfl, Scalar.sortByKey?_of_text fun e he => h.isText (List.mem_map_of_mem he)]
    rfl

/-- The tokens of an entry: its key, a colon and the tokens of its value. -/
def memberTokens (e : Scalar × Except WriteFault (List Token)) :
    Except WriteFault (List Token) := do
  let key ← keyText e.1
  let value ← e.2
  .ok (.text key :: .colon :: value)

/-- The tokens of a dictionary are those of its entries in their order. -/
theorem exists_of_tokens_dict {entries : List (Scalar × Value)} {ts : List Token}
    (h : tokens sortKeys depth (.dict entries) = .ok ts) :
    ∃ listed tss, ordered sortKeys entries = .ok listed ∧
      List.Forall₂ (fun e ts => memberTokens (e.1, tokens sortKeys (depth + 1) e.2) = .ok ts)
        listed tss ∧
      ts = bracketed .beginObject .endObject tss := by
  rw [tokens] at h
  split_ifs at h
  obtain ⟨members, hmembers, h⟩ := exists_of_bind_eq_ok h
  obtain ⟨tss, htss, h⟩ := exists_of_bind_eq_ok h
  obtain rfl := Except.ok.inj h
  rw [entryTokens_eq, ordered_map_snd] at hmembers
  obtain ⟨listed, hlisted, rfl⟩ := exists_of_map_eq_ok hmembers
  refine ⟨listed, tss, hlisted, ?_, rfl⟩
  exact List.forall₂_map_left_iff.mp (forall₂_of_mapM htss)

/-- What the tokens of a value are read as: a tree, and the same one if all its keys are texts. -/
def ReadAs (sortKeys : Bool) (levels : Nat) (ts : List Token) (v w : Value) : Prop :=
  Delivers ts w levels ∧ (v.IsTextKeyed → w = v.arranged sortKeys)

theorem exists_items {items : List Value} {tss : List (List Token)} {levels : Nat}
    (h : List.Forall₂ (fun v ts => tokens sortKeys (depth + 1) v = .ok ts) items tss)
    (hread : ∀ v ∈ items, ∀ ts, tokens sortKeys (depth + 1) v = .ok ts →
      ∃ w, ReadAs sortKeys levels ts v w) :
    ∃ ws, List.Forall₂ (fun ts w => Delivers ts w levels) tss ws ∧
      ((∀ v ∈ items, v.IsTextKeyed) → ws = items.map (Value.arranged sortKeys)) := by
  induction h with
  | nil => exact ⟨[], .nil, fun _ => rfl⟩
  | @cons v ts items tss hv _ ih =>
    obtain ⟨w, hw, hwv⟩ := hread v List.mem_cons_self ts hv
    obtain ⟨ws, hws, hsame⟩ := ih fun u hu => hread u (List.mem_cons_of_mem _ hu)
    refine ⟨w :: ws, .cons hw hws, fun hkeys => ?_⟩
    rw [List.map_cons, ← hwv (hkeys v List.mem_cons_self),
      ← hsame fun u hu => hkeys u (List.mem_cons_of_mem _ hu)]

theorem exists_entries {listed : List (Scalar × Value)} {tss : List (List Token)} {levels : Nat}
    (h : List.Forall₂ (fun e ts => memberTokens (e.1, tokens sortKeys (depth + 1) e.2) = .ok ts)
      listed tss)
    (hread : ∀ e ∈ listed, ∀ ts, tokens sortKeys (depth + 1) e.2 = .ok ts →
      ∃ w, ReadAs sortKeys levels ts e.2 w) :
    ∃ es, List.Forall₂ (DeliversEntry levels) tss es ∧
      ((∀ e ∈ listed, e.1.text?.isSome = true ∧ e.2.IsTextKeyed) →
        es = listed.map fun e => (e.1, e.2.arranged sortKeys)) := by
  induction h with
  | nil => exact ⟨[], .nil, fun _ => rfl⟩
  | @cons e ts listed tss he _ ih =>
    obtain ⟨key, hkey, he⟩ := exists_of_bind_eq_ok he
    obtain ⟨body, hbody, he⟩ := exists_of_bind_eq_ok he
    obtain rfl := Except.ok.inj he
    obtain ⟨w, hw, hwv⟩ := hread e List.mem_cons_self body hbody
    obtain ⟨es, hes, hsame⟩ := ih fun f hf => hread f (List.mem_cons_of_mem _ hf)
    refine ⟨(.text key, w) :: es, .cons ⟨key, body, rfl, rfl, hw⟩ hes, fun hkeys => ?_⟩
    obtain ⟨htext, hover⟩ := hkeys e List.mem_cons_self
    -- a key that is text is its own text
    have hsameKey : e.1 = .text key := by
      rw [Scalar.eq_text_keyText htext] at hkey ⊢
      exact congrArg Scalar.text (Except.ok.inj hkey)
    rw [List.map_cons, ← hwv hover, hsameKey,
      ← hsame fun f hf => hkeys f (List.mem_cons_of_mem _ hf)]

/-- The tokens of a tree are read, whatever its keys are. -/
theorem exists_delivers {v : Value} {ts : List Token} (h : tokens sortKeys depth v = .ok ts) :
    ∃ w, ReadAs sortKeys v.depth ts v w := by
  induction v using Value.induct generalizing depth ts with
  | scalar s =>
    rw [tokens] at h
    obtain ⟨t, ht, rfl⟩ := exists_of_map_eq_ok h
    exact ⟨.scalar s, delivers_scalar ht, fun _ => (Value.arranged_scalar sortKeys s).symm⟩
  | array items ih =>
    rw [tokens] at h
    split_ifs at h
    obtain ⟨tss, htss, rfl⟩ := exists_of_map_eq_ok h
    obtain ⟨n, hn, hitems⟩ :=
      Value.exists_depth_eq_succ_of_array (Nat.le_refl (Value.array items).depth)
    -- every item is one level deeper, which the depth of the array allows for
    obtain ⟨ws, hws, hsame⟩ := exists_items (forall₂_of_itemTokens htss)
      fun v hv ts hts => by
        obtain ⟨w, hw, hwv⟩ := ih v hv hts
        exact ⟨w, hw.mono (hitems v hv), hwv⟩
    rw [hn]
    refine ⟨.array ws, delivers_array hws, fun hkeys => ?_⟩
    rw [Value.arranged_array, hsame (Value.over_array_iff.mp hkeys)]
  | dict entries ih =>
    obtain ⟨listed, tss, hlisted, heach, rfl⟩ := exists_of_tokens_dict h
    obtain ⟨n, hn, hentries⟩ :=
      Value.exists_depth_eq_succ_of_dict (Nat.le_refl (Value.dict entries).depth)
    have hmem : ∀ e ∈ listed, e ∈ entries := fun e => (perm_of_ordered hlisted).mem_iff.mp
    obtain ⟨es, hes, hsame⟩ := exists_entries heach fun e he ts hts => by
      obtain ⟨w, hw, hwv⟩ := ih e (hmem e he) hts
      exact ⟨w, hw.mono (hentries e (hmem e he)), hwv⟩
    rw [hn]
    refine ⟨.ofEntries es, delivers_dict hes, fun hover => ?_⟩
    obtain ⟨hkeys, hvalues⟩ := Value.over_dict_iff.mp hover
    obtain rfl := Except.ok.inj (hlisted.symm.trans (ordered_of_textKeys hkeys))
    rw [hsame fun e he => ⟨hkeys.isText (List.mem_map_of_mem (hmem e he)), hvalues e (hmem e he)⟩,
      Value.arranged_dict]
    apply Value.ofEntries_of_textKeys (Q := fun _ => True)
    rw [List.map_map]
    exact hkeys.perm ((Value.listedEntries_perm sortKeys entries).symm.map _)
  | back k =>
    rw [tokens] at h
    cases h

/-- Sorted tokens are the same for a tree that is sorted already. -/
theorem tokens_sorted {P : Scalar → Prop} {Q : Text → Prop} {v : Value}
    (hv : v.Over P (TextKeys Q)) (depth : Nat) :
    tokens true depth v.sorted = tokens true depth v := by
  induction hv generalizing depth with
  | scalar => rw [Value.sorted_scalar]
  | @array items hall ih =>
    have hitems : itemTokens true depth (items.map Value.sorted) = itemTokens true depth items := by
      clear hall
      induction items with
      | nil => rfl
      | cons v vs ihs =>
        rw [List.map_cons, itemTokens, itemTokens, ih v List.mem_cons_self,
          ihs fun w hw => ih w (List.mem_cons_of_mem _ hw)]
    rw [Value.sorted_array, tokens, tokens, hitems]
  | @dict entries hkeys _ ih =>
    -- sorting the entries again keeps their order
    have hentries : ordered true (entryTokens true depth
        (Value.sortEntries (entries.map fun e => (e.1, e.2.sorted)))) =
          ordered true (entryTokens true depth entries) := by
      rw [entryTokens_eq, entryTokens_eq, ordered_map_snd, ordered_map_snd,
        ordered_of_textKeys (hkeys.perm (Value.keys_sorted_perm entries).symm),
        ordered_of_textKeys hkeys, Value.listedEntries_sorted]
      show Except.ok (List.map _ (List.map _ _)) = Except.ok (List.map _ _)
      rw [List.map_map]
      refine congrArg Except.ok (List.map_congr_left fun e he => ?_)
      have hmem : e ∈ entries := (Value.listedEntries_perm true entries).mem_iff.mp he
      exact congrArg (Prod.mk e.1) (ih e hmem (depth + 1))
    rw [Value.sorted_dict, tokens, tokens, hentries]

end Trees

/-- Writing a tree as it is listed is writing the tree. -/
theorem write_arranged {P : Scalar → Prop} {Q : Text → Prop} {v : Value}
    (hv : v.Over P (TextKeys Q)) (layout : Layout) (sortKeys : Bool) :
    write layout sortKeys (v.arranged sortKeys) = write layout sortKeys v := by
  cases sortKeys with
  | false => rfl
  | true => rw [write, write, writeText, writeText, Value.arranged_true, tokens_sorted hv]

end PropertyList.Json
