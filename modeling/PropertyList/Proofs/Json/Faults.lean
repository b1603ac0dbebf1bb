/-
  PropertyList.Proofs.Json.Faults

  The JSON writer decides which trees JSON can express.  Its tokens only depend on
  the kinds of scalars and keys; whether texts hold surrogates shows when the text
  of the tokens is encoded.
-/
import PropertyList.Proofs.Expressible
import PropertyList.Proofs.Json.Machine

namespace PropertyList.Json

variable {sortKeys : Bool} {depth : Nat} {v : Value} {f : WriteFault}

/-- What is known of a fault in writing a tree with `depth` containers around it. -/
def Blames (v : Value) (depth : Nat) (f : WriteFault) : Prop :=
  f = .tooDeep → writeDepth < depth + v.depth

/-- A fault in an item is a fault in the array. -/
theorem Blames.item {items : List Value} (h : Blames v (depth + 1) f) (hv : v ∈ items) :
    Blames (.array items) depth f := by
  intro hf
  have hdeep := h hf
  have hlt := Value.depth_lt_of_mem_array hv
  omega

/-- A fault in a value is a fault in the dictionary. -/
theorem Blames.value {entries : List (Scalar × Value)} {e : Scalar × Value}
    (h : Blames e.2 (depth + 1) f) (he : e ∈ entries) : Blames (.dict entries) depth f := by
  intro hf
  have hdeep := h hf
  have hlt := Value.depth_lt_of_mem_dict he
  omega

/-! ## Tokens -/

/-- The scalars that have a token: all texts, and what JSON can express. -/
def HasToken (s : Scalar) : Prop := s.text?.isSome = true ∨ Encoding.json.HasForm s

/-- The keys of which there are tokens in the order asked for. -/
def HasTokens (sortKeys : Bool) (keys : List Scalar) : Prop :=
  (sortKeys = true → Scalar.orderable keys = true) ∧ ∀ k ∈ keys, HasToken k

theorem hasToken_iff {s : Scalar} (hs : s.text? = none) :
    HasToken s ↔ Encoding.json.HasForm s := by
  simp [HasToken, hs]

theorem decides_scalarToken (s : Scalar) :
    Decides (HasToken s) (Blames v depth) (scalarToken s) := by
  cases s with
  | null => exact .ok (.inr trivial)
  | bool b => exact .ok (.inr trivial)
  | int n =>
    rw [scalarToken, hasToken_iff rfl]
    split
    · next h => exact .ok h
    · next h => exact .error h (by rintro ⟨⟩)
  | real x =>
    rw [scalarToken, hasToken_iff rfl]
    split
    · next h => exact .ok h
    · next h => exact .error h (by rintro ⟨⟩)
  | text t => exact .ok (.inl rfl)
  | data bytes => exact .error (hasToken_iff rfl).mp (by rintro ⟨⟩)
  | date t => exact .error (hasToken_iff rfl).mp (by rintro ⟨⟩)
  | uid n => exact .error (hasToken_iff rfl).mp (by rintro ⟨⟩)

theorem decides_keyText (k : Scalar) : Decides (HasToken k) (Blames v depth) (keyText k) := by
  cases k with
  | text t => exact .ok (.inl rfl)
  | data bytes => exact .error (hasToken_iff rfl).mp (by rintro ⟨⟩)
  | date t => exact .error (hasToken_iff rfl).mp (by rintro ⟨⟩)
  | uid n => exact .error (hasToken_iff rfl).mp (by rintro ⟨⟩)
  | _ =>
    rw [keyText]
    · exact (decides_scalarToken _).map
    all_goals simp

/-- The items of an array have tokens if each of them has. -/
theorem decides_itemTokens {P : Value → Prop} {F : WriteFault → Prop} {items : List Value}
    (h : ∀ v ∈ items, Decides (P v) F (tokens sortKeys (depth + 1) v)) :
    Decides (∀ v ∈ items, P v) F (itemTokens sortKeys depth items) := by
  induction items with
  | nil => exact .ok (List.forall_mem_nil _)
  | cons v vs ih =>
    rw [itemTokens]
    have hrest := ih fun w hw => h w (List.mem_cons_of_mem _ hw)
    refine ((h v List.mem_cons_self).bind fun first _ _ => hrest.map).congr ?_
    rw [List.forall_mem_cons]

/-- A dictionary has tokens if its keys have and each of its values has. -/
theorem decides_dict {P : Value → Prop} {entries : List (Scalar × Value)} (hdepth : depth < writeDepth)
    (h : ∀ e ∈ entries, Decides (P e.2) (Blames (.dict entries) depth)
      (tokens sortKeys (depth + 1) e.2)) :
    Decides (HasTokens sortKeys (entries.map (·.1)) ∧ ∀ e ∈ entries, P e.2)
      (Blames (.dict entries) depth) (tokens sortKeys depth (.dict entries)) := by
  have hnone : Blames (.dict entries) depth .unorderedKeys := by rintro ⟨⟩
  rw [tokens, if_neg (by omega), entryTokens_eq, ordered_eq, ← bind_assoc]
  refine Decides.congr (Decides.bind (Decides.entries (K := HasToken) (Q := P) sortKeys entries
    (tokens sortKeys (depth + 1)) hnone ?_)
    fun _ _ _ => .ok trivial) ?_
  · intro e he
    refine Decides.congr (Decides.bind (decides_keyText e.1) fun key _ _ =>
      Decides.bind (h e he) fun value _ _ => .ok trivial) ?_
    rw [and_true]
  · rw [and_true, HasTokens]

/-- There are tokens of the trees whose scalars and keys have them, as far as the depth of the
    writer allows. -/
theorem decides_tokens (sortKeys : Bool) (v : Value) (hlevel : depth ≤ writeDepth) :
    Decides (v.Over HasToken (HasTokens sortKeys) ∧ depth + v.depth ≤ writeDepth) (Blames v depth)
      (tokens sortKeys depth v) := by
  induction v using Value.induct generalizing depth with
  | scalar s =>
    rw [tokens]
    refine ((decides_scalarToken s).map).congr ?_
    rw [Value.over_scalar_iff]
    exact ⟨fun h => ⟨h, hlevel⟩, fun h => h.1⟩
  | array items ih =>
    by_cases hroom : depth < writeDepth
    · rw [tokens, if_neg (by omega), Value.over_array_iff, Value.add_depth_array_le_iff hroom,
        ← forall₂_and]
      exact (decides_itemTokens fun v hv => (ih v hv hroom).mono fun f hf => hf.item hv).map
    · rw [tokens, if_pos (not_lt.mp hroom)]
      -- there is no room for the array, and so the fault is that of the depth
      have hdeep := Value.lt_add_depth_array items (not_lt.mp hroom)
      exact .error (fun h => by omega) fun _ => hdeep
  | dict entries ih =>
    by_cases hroom : depth < writeDepth
    · rw [Value.over_dict_iff, Value.add_depth_dict_le_iff hroom, and_assoc, ← forall₂_and]
      refine decides_dict (P := fun w => w.Over HasToken (HasTokens sortKeys) ∧
        depth + 1 + w.depth ≤ writeDepth) hroom fun e he => ?_
      exact (ih e he hroom).mono fun f hf => hf.value he
    · rw [tokens, if_pos (not_lt.mp hroom)]
      have hdeep := Value.lt_add_depth_dict entries (not_lt.mp hroom)
      exact .error (fun h => by omega) fun _ => hdeep
  | back k =>
    rw [tokens]
    exact .error (fun h => Value.not_over_back h.1) (by rintro ⟨⟩)

/-! ## Texts -/

theorem escaped_surrogate (k : Fin 2048) : escaped (.surrogate k) = [.surrogate k] := by
  have hlarge : 0xD800 ≤ (CodePoint.surrogate k).toNat := Nat.le_add_right _ _
  rw [escaped_eq, if_neg (by simp), if_neg (by simp)]
  repeat rw [if_neg (by omega)]

/-- A quoted text can be encoded if the text can: surrogates stand for themselves. -/
theorem isEncodable_quoted {t : Text} : (quoted t).IsEncodable ↔ t.IsEncodable := by
  constructor
  · intro h
    refine Text.isEncodable_iff.mpr fun c hc => ?_
    cases c with
    | scalar d => exact ⟨d, rfl⟩
    | surrogate k =>
      have hmem : CodePoint.surrogate k ∈ quoted t := by
        refine List.mem_cons_of_mem _ (List.mem_append_left _ (List.mem_flatMap.mpr ⟨_, hc, ?_⟩))
        rw [escaped_surrogate]
        exact List.mem_singleton_self _
      exact Text.isEncodable_iff.mp h _ hmem
  · rintro ⟨cs, rfl⟩
    refine Text.isEncodable_iff.mpr fun c hc => ?_
    obtain ⟨d, rfl, -⟩ := isWritten_quoted cs c hc
    exact ⟨d, rfl⟩

/-- Only texts can keep the text of a token from being encoded. -/
theorem isEncodable_toText {t : Token} :
    t.toText.IsEncodable ↔ ∀ u, t = .text u → u.IsEncodable := by
  cases t with
  | text u =>
    refine isEncodable_quoted.trans ⟨?_, fun h => h u rfl⟩
    rintro h u ⟨⟩
    exact h
  | beginArray => exact iff_of_true ⟨['['], rfl⟩ (by rintro u ⟨⟩)
  | endArray => exact iff_of_true ⟨[']'], rfl⟩ (by rintro u ⟨⟩)
  | beginObject => exact iff_of_true ⟨['\x7b'], rfl⟩ (by rintro u ⟨⟩)
  | endObject => exact iff_of_true ⟨['\x7d'], rfl⟩ (by rintro u ⟨⟩)
  | colon => exact iff_of_true ⟨[':'], rfl⟩ (by rintro u ⟨⟩)
  | comma => exact iff_of_true ⟨[','], rfl⟩ (by rintro u ⟨⟩)
  | null => exact iff_of_true ⟨_, rfl⟩ (by rintro u ⟨⟩)
  | bool b => cases b <;> exact iff_of_true ⟨_, rfl⟩ (by rintro u ⟨⟩)
  | int n => exact iff_of_true ⟨_, rfl⟩ (by rintro u ⟨⟩)
  | real x => exact iff_of_true ⟨_, rfl⟩ (by rintro u ⟨⟩)

/-- The text of tokens can be encoded if that of each token can. -/
theorem Spaced.isEncodable_iff {ts : List Token} {s : Text} (h : Spaced ts s) :
    s.IsEncodable ↔ ∀ t ∈ ts, t.toText.IsEncodable := by
  induction h with
  | nil => exact iff_of_true ⟨[], rfl⟩ (List.forall_mem_nil _)
  | @blank ts c s hc _ ih =>
    rw [← ih, Text.isEncodable_iff, Text.isEncodable_iff, List.forall_mem_cons, and_iff_right]
    simp only [isBlank, Bool.or_eq_true, decide_eq_true_eq] at hc
    rcases hc with ((rfl | rfl) | rfl) | rfl <;> exact ⟨_, rfl⟩
  | @token ts s t _ ih =>
    rw [Text.isEncodable_iff, List.forall_mem_append, ← Text.isEncodable_iff,
      ← Text.isEncodable_iff, ih, List.forall_mem_cons]

theorem mem_bracketed {first last t : Token} {tss : List (List Token)} {ts : List Token}
    (hts : ts ∈ tss) (ht : t ∈ ts) : t ∈ bracketed first last tss := by
  refine List.mem_cons_of_mem _ (List.mem_append_left _ (List.mem_flatten.mpr ⟨ts, ?_, ht⟩))
  induction tss with
  | nil => cases hts
  | cons ts' tss ih =>
    cases tss with
    | nil => exact hts
    | cons ts'' tss =>
      rw [List.intersperse_cons_cons]
      rcases List.mem_cons.mp hts with rfl | hts
      · exact List.mem_cons_self
      · exact List.mem_cons_of_mem _ (List.mem_cons_of_mem _ (ih hts))

theorem isEncodable_bracketed {first last : Token} {tss : List (List Token)}
    (hfirst : first.toText.IsEncodable) (hlast : last.toText.IsEncodable) :
    (∀ t ∈ bracketed first last tss, t.toText.IsEncodable) ↔
      ∀ ts ∈ tss, ∀ t ∈ ts, t.toText.IsEncodable :=
  ⟨fun h _ hts t ht => h t (mem_bracketed hts ht),
    forall_mem_bracketed hfirst hlast ⟨[','], rfl⟩⟩

theorem scalarToken_spec {s : Scalar} {t : Token} (h : scalarToken s = .ok t) :
    t.toText.IsEncodable ↔ ∀ u, s = .text u → u.IsEncodable := by
  rw [isEncodable_toText]
  refine forall_congr' fun u => imp_congr_left ?_
  cases s with
  | int n =>
    rw [scalarToken] at h
    split at h
    -- a numeral is no text, and neither is the number
    · obtain rfl := Except.ok.inj h
      exact iff_of_false (by rintro ⟨⟩) (by rintro ⟨⟩)
    · cases h
  | real x =>
    rw [scalarToken] at h
    split at h
    · obtain rfl := Except.ok.inj h
      exact iff_of_false (by rintro ⟨⟩) (by rintro ⟨⟩)
    · cases h
  | text t' =>
    obtain rfl := Except.ok.inj h
    exact ⟨by rintro ⟨⟩; rfl, by rintro ⟨⟩; rfl⟩
  | null =>
    obtain rfl := Except.ok.inj h
    exact iff_of_false (by rintro ⟨⟩) (by rintro ⟨⟩)
  | bool b =>
    obtain rfl := Except.ok.inj h
    exact iff_of_false (by rintro ⟨⟩) (by rintro ⟨⟩)
  | data bytes => cases h
  | date t' => cases h
  | uid n => cases h

/-- The text of a key is the key itself, or the text of its token. -/
theorem keyText_cases {k : Scalar} {u : Text} (h : keyText k = .ok u) :
    k = .text u ∨ ∃ t, scalarToken k = .ok t ∧ k.text? = none ∧ t.toText = u := by
  cases k with
  | text t => exact .inl (congrArg Scalar.text (Except.ok.inj h))
  | data bytes => cases h
  | date t => cases h
  | uid n => cases h
  | _ =>
    rw [keyText] at h
    · obtain ⟨t, ht, rfl⟩ := exists_of_map_eq_ok h
      exact .inr ⟨t, ht, rfl, rfl⟩
    all_goals simp

theorem keyText_spec {k : Scalar} {u : Text} (h : keyText k = .ok u) :
    (Token.text u).toText.IsEncodable ↔ ∀ t, k = .text t → t.IsEncodable := by
  rw [Token.toText, isEncodable_quoted]
  rcases keyText_cases h with rfl | ⟨t, ht, -, rfl⟩
  · exact ⟨by rintro hu t ⟨⟩; exact hu, fun h => h u rfl⟩
  · exact scalarToken_spec ht

/-- The tokens of an entry can be encoded if its key can, and the texts of its value. -/
theorem member_spec {k : Scalar} {value : Except WriteFault (List Token)} {ts : List Token}
    (h : memberTokens (k, value) = .ok ts)
    (hvalue : ∀ body, value = .ok body →
      ((∀ t ∈ body, t.toText.IsEncodable) ↔ ∀ u, v.Mentions (.text u) → u.IsEncodable)) :
    (∀ t ∈ ts, t.toText.IsEncodable) ↔
      ∀ u, .text u = k ∨ v.Mentions (.text u) → u.IsEncodable := by
  obtain ⟨key, hkey, h⟩ := exists_of_bind_eq_ok h
  obtain ⟨body, hbody, h⟩ := exists_of_bind_eq_ok h
  obtain rfl := Except.ok.inj h
  have hcolon : Token.colon.toText.IsEncodable := ⟨[':'], rfl⟩
  rw [List.forall_mem_cons, List.forall_mem_cons, and_iff_right hcolon, keyText_spec hkey,
    hvalue body hbody]
  constructor
  · rintro ⟨hk, hv⟩ u (hu | hu)
    · exact hk u hu.symm
    · exact hv u hu
  · intro h
    exact ⟨fun u hu => h u (.inl hu.symm), fun u hu => h u (.inr hu)⟩

/-- The tokens of a tree can be encoded if the texts that it mentions can. -/
theorem tokens_spec {ts : List Token} (h : tokens sortKeys depth v = .ok ts) :
    (∀ t ∈ ts, t.toText.IsEncodable) ↔ ∀ u, v.Mentions (.text u) → u.IsEncodable := by
  induction v using Value.induct generalizing depth ts with
  | scalar s =>
    rw [tokens] at h
    obtain ⟨t, ht, rfl⟩ := exists_of_map_eq_ok h
    rw [List.forall_mem_singleton, scalarToken_spec ht]
    simp only [Value.mentions_scalar_iff, eq_comm]
  | array items ih =>
    rw [tokens] at h
    split at h
    · cases h
    obtain ⟨tss, htss, rfl⟩ := exists_of_map_eq_ok h
    rw [isEncodable_bracketed ⟨['['], rfl⟩ ⟨[']'], rfl⟩]
    have heach := forall₂_of_itemTokens htss
    constructor
    · intro hall u hu
      obtain ⟨v, hv, hu⟩ := Value.mentions_array_iff.mp hu
      obtain ⟨ts, hts, hvts⟩ := exists_of_forall₂_left heach hv
      exact (ih v hv hvts).mp (hall ts hts) u hu
    · intro hall ts hts
      obtain ⟨v, hv, hvts⟩ := exists_of_forall₂_left heach.flip hts
      exact (ih v hv hvts).mpr fun u hu => hall u (.item hv hu)
  | dict entries ih =>
    obtain ⟨listed, tss, hlisted, heach, rfl⟩ := exists_of_tokens_dict h
    rw [isEncodable_bracketed ⟨['\x7b'], rfl⟩ ⟨['\x7d'], rfl⟩]
    -- each entry that is listed is one of the dictionary, and each of these is listed
    have hperm := perm_of_ordered hlisted
    constructor
    · intro hall u hu
      obtain ⟨e, he, hu⟩ := Value.mentions_dict_iff.mp hu
      obtain ⟨ts, hts, hets⟩ := exists_of_forall₂_left heach (hperm.mem_iff.mpr he)
      exact (member_spec hets fun body hbody => ih e he hbody).mp (hall ts hts) u hu
    · intro hall ts hts
      obtain ⟨e, he, hets⟩ := exists_of_forall₂_left heach.flip hts
      have hmem := hperm.mem_iff.mp he
      exact (member_spec hets fun body hbody => ih e hmem hbody).mpr fun u hu =>
        hall u (Value.mentions_dict_iff.mpr ⟨e, hmem, hu⟩)
  | back k =>
    rw [tokens] at h
    cases h

/-! ## Bytes -/

theorem isEncodable_iff_encodeText? {t : Text} :
    t.IsEncodable ↔ (Utf8.encodeText? t).isSome = true := by
  rw [Utf8.encodeText?, Option.isSome_map]
  constructor
  · rintro ⟨cs, rfl⟩
    rw [Text.chars?_ofChars]
    rfl
  · intro h
    obtain ⟨cs, hcs⟩ := Option.isSome_iff_exists.mp h
    exact ⟨cs, Text.chars?_eq_some hcs⟩

/-- The trees that JSON can express have tokens, and all their texts can be encoded. -/
theorem expresses_iff : Encoding.json.Expresses sortKeys v ↔
    v.Over HasToken (HasTokens sortKeys) ∧ ∀ u, v.Mentions (.text u) → u.IsEncodable := by
  have hform (s : Scalar) : Encoding.json.HasForm s ↔
      HasToken s ∧ ∀ u, s = .text u → u.IsEncodable := by
    cases s with
    | text t => exact ⟨fun h => ⟨.inl rfl, by rintro u ⟨⟩; exact h⟩, fun h => h.2 t rfl⟩
    | _ => rw [hasToken_iff rfl, and_iff_left (by rintro u ⟨⟩)]
  have hkeys (keys : List Scalar) : Encoding.json.HasKeys sortKeys keys ↔
      HasTokens sortKeys keys ∧ ∀ k ∈ keys, ∀ u, k = .text u → u.IsEncodable := by
    constructor
    · intro h
      exact ⟨⟨h.order, fun k hk => ((hform k).mp (h.form k hk)).1⟩,
        fun k hk => ((hform k).mp (h.form k hk)).2⟩
    · rintro ⟨⟨horder, htokens⟩, htexts⟩
      exact ⟨fun k hk => (hform k).mpr ⟨htokens k hk, htexts k hk⟩, fun _ _ => .inl rfl, horder⟩
  rw [Encoding.Expresses, funext fun s => propext (hform s), funext fun ks => propext (hkeys ks),
    Value.over_and_mentions]
  refine and_congr_right fun _ => ?_
  exact ⟨fun h u hu => h _ hu u rfl, by rintro h s hs u rfl; exact h u hs⟩

/-- JSON is written of the trees that it can express, as far as the depth of the writer allows. -/
theorem decides_write (layout : Layout) (sortKeys : Bool) (v : Value) :
    Decides (Encoding.json.Expresses sortKeys v ∧ v.depth ≤ writeDepth) (Blames v 0)
      (write layout sortKeys v) := by
  have htokens := decides_tokens sortKeys v (Nat.zero_le writeDepth)
  rw [Nat.zero_add] at htokens
  refine ((htokens.map (g := layout.render)).bind
    (Q := ∀ u, v.Mentions (.text u) → u.IsEncodable) fun text htext _ => ?_).congr ?_
  · obtain ⟨ts, hts, rfl⟩ := exists_of_map_eq_ok htext
    have hiff := (spaced_render layout ts).isEncodable_iff.trans (tokens_spec hts)
    cases hbytes : Utf8.encodeText? (layout.render ts) with
    | some bytes =>
      exact .ok (hiff.mp (isEncodable_iff_encodeText?.mpr (Option.isSome_iff_exists.mpr ⟨_, hbytes⟩)))
    | none =>
      refine .error (fun h => ?_) (by rintro ⟨⟩)
      have hsome := isEncodable_iff_encodeText?.mp (hiff.mpr h)
      rw [hbytes] at hsome
      cases hsome
  · rw [expresses_iff, and_right_comm]

end PropertyList.Json
