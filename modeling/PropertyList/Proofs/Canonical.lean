/-
  PropertyList.Proofs.Canonical

  Sorted output is canonical: documents that differ only in the order of entries are
  written as the same bytes, or fail in the same way, and what is read back lists the
  keys of every dictionary in ascending order.
-/
import PropertyList.Proofs.Binary.Nested
import PropertyList.Proofs.Json.RoundTrip
import PropertyList.Proofs.Value.Order
import PropertyList.Proofs.Xml.Containers

namespace PropertyList

variable {g g' : Graph} {v w : Value} {bytes : List UInt8}

/-! ## Two documents -/

/-- Documents that differ only in the order of entries are written alike if the keys are sorted. -/
theorem Encoding.writeGraph_reordered (e : Encoding) (layout : Json.Layout) (hg : g.Unshared)
    (hg' : g'.Unshared) (hv : g.Holds g.root v) (hw : g'.Holds g'.root w) (hkeys : v.IsTextKeyed)
    (h : v.Reordered w) :
    e.writeGraph { sortKeys := true, layout } g = e.writeGraph { sortKeys := true, layout } g' := by
  have hsorted : v.arranged true = w.arranged true := h.sorted_eq hkeys
  have hkeys' := h.isTextKeyed hkeys
  cases e with
  | binary =>
    show (Binary.write g true).mapError _ = (Binary.write g' true).mapError _
    rw [Binary.write_sorted_congr hg hg' hv hw (Binary.hasTextKeys_of_over hkeys)
      (Binary.hasTextKeys_of_over hkeys') hsorted]
  | xml =>
    show (Xml.write true g.value).mapError _ = (Xml.write true g'.value).mapError _
    rw [hv.value_eq, hw.value_eq, ← Xml.write_arranged hkeys, hsorted, Xml.write_arranged hkeys']
  | json =>
    show (Json.write layout true g.value).mapError _ = (Json.write layout true g'.value).mapError _
    rw [hv.value_eq, hw.value_eq, ← Json.write_arranged hkeys, hsorted, Json.write_arranged hkeys']

/-! ## Reading it back -/

/-- What reading gives of a sorted binary list of a tree: the tree again, sorted, but for scalars,
    or a fault that the tree accounts for. -/
theorem Binary.read_sorted (hv : g.Holds g.root v) (hkeys : v.IsTextKeyed)
    (hwrite : Binary.write g true = .ok bytes) (hlen : bytes.length < 0x8000000000000000) :
    (∃ g' f, Binary.read bytes = .ok g' ∧ g'.Holds g'.root (v.sorted.mapScalars f)) ∨
      Binary.read bytes = .error .tooDeep ∧ 320 ≤ v.depth ∨
      Binary.read bytes = .error .malformed ∧
        ∃ t, v.Mentions (.date t) ∧ DateTime.ofSeconds? t.secondsSinceEpoch = none := by
  obtain ⟨objects, rs, hwritten⟩ := exists_written hwrite
  obtain ⟨negative, hsign⟩ := hwritten.exists_zeroSign
  have htext := hasTextKeys_of_over hkeys
  have hholds := hwritten.exists_holds htext hv hsign
  have hends := hwritten.ends_read (hv.wellKeyed hkeys) hlen
  generalize hread : Binary.read bytes = result at hends
  cases hends with
  | ok hok =>
    obtain ⟨nodes, rfl, hfaithful, hfilled⟩ := hok
    refine .inl ⟨_, Scalar.restored ∘ Scalar.withZero negative, rfl, ?_⟩
    rw [← Value.mapScalars_mapScalars]
    exact holds_graphOf hfaithful hholds hfilled
  | tooDeep => exact .inr (.inl ⟨rfl, hwritten.le_depth htext hv hlen hread⟩)
  | malformed hlost =>
    obtain ⟨s, hs, hnone⟩ := hlost
    obtain ⟨i, hi, hnode⟩ := hwritten.exists_of_mem hs
    obtain ⟨t, rfl, ht⟩ := Scalar.exists_date_of_reread? hnone
    exact .inr (.inr ⟨rfl, t, hv.mentions hi hnode, ht⟩)

/-! ## Documents -/

namespace Encoding

/-- With sorted keys the order in which the entries stood makes no difference.  Documents without
    shared containers that differ only in it are written as the same bytes, or fail in the same
    way, in each encoding.  What is read back from a binary list or from JSON is the tree with the
    keys of every dictionary in ascending order; only a binary list may fail to be read, because
    it nests too deeply for the reader, or because of a date that was rounded to none. -/
theorem write_reordered (e : Encoding) (layout : Json.Layout) (source source' : Selector)
    (hg : g.Unshared) (hg' : g'.Unshared) (hv : g.Holds g.root v) (hw : g'.Holds g'.root w)
    (hkeys : v.IsTextKeyed) (h : v.Reordered w) :
    e.write { sortKeys := true, layout } ⟨source, some g⟩ =
      e.write { sortKeys := true, layout } ⟨source', some g'⟩ ∧
    ∀ bytes, e.write { sortKeys := true, layout } ⟨source, some g⟩ = .ok bytes → e ≠ .xml →
      (e = .binary → bytes.length < 0x8000000000000000) →
      (∃ g f, e.read bytes = .ok ⟨.only e, some g⟩ ∧ g.Holds g.root (v.sorted.mapScalars f) ∧
        (v.sorted.mapScalars f).IsAscending) ∨
      e = .binary ∧
        (e.read bytes = .error (.binary .tooDeep) ∧ 320 ≤ v.depth ∨
          e.read bytes = .error (.binary .malformed) ∧
            ∃ t, v.Mentions (.date t) ∧ DateTime.ofSeconds? t.secondsSinceEpoch = none) := by
  refine ⟨writeGraph_reordered e layout hg hg' hv hw hkeys h, fun bytes hwrite hxml hlen => ?_⟩
  have hsorted := Value.isAscending_sorted hkeys
  cases e with
  | xml => exact absurd rfl hxml
  | json =>
    obtain ⟨u, hread, hu⟩ := Json.exists_read_of_write (eq_ok_of_mapError hwrite)
    rw [hv.value_eq] at hu
    obtain rfl := hu hkeys
    refine .inl ⟨_, id, json_read_of_ok hread, ?_⟩
    rw [Value.arranged_true, Value.mapScalars_id]
    exact ⟨Graph.holds_ofValue hsorted, hsorted⟩
  | binary =>
    have hbytes := eq_ok_of_mapError hwrite
    have hheader := Binary.hasHeader_of_write hbytes
    rcases Binary.read_sorted hv hkeys hbytes (hlen rfl) with
      ⟨g'', f, hread, hholds⟩ | ⟨hread, hdepth⟩ | ⟨hread, hdate⟩
    · refine .inl ⟨g'', f, binary_read_of_ok hheader hread, hholds, ?_⟩
      exact hsorted.mapScalars fun _ _ => trivial
    · exact .inr ⟨rfl, .inl ⟨binary_read_of_error hheader hread, hdepth⟩⟩
    · exact .inr ⟨rfl, .inr ⟨binary_read_of_error hheader hread, hdate⟩⟩

/-- Two entries exchanged, and the two of a dictionary inside. -/
theorem write_reordered_inner :
    let key (s : String) : Scalar := .text (Text.ofString s)
    let v : Value :=
      .dict [(key "b", .dict [(key "é", .int 1), (key "z", .null)]), (key "a", .bool true)]
    let w : Value :=
      .dict [(key "a", .bool true), (key "b", .dict [(key "z", .null), (key "é", .int 1)])]
    v.IsTextKeyed ∧ v.Reordered w ∧ ∃ bytes,
      json.write { sortKeys := true } ⟨.auto, some (.ofValue v)⟩ = .ok bytes ∧
      json.write { sortKeys := true } ⟨.auto, some (.ofValue w)⟩ = .ok bytes ∧
      ∃ g f, json.read bytes = .ok ⟨.only .json, some g⟩ ∧
        g.Holds g.root (v.sorted.mapScalars f) ∧ (v.sorted.mapScalars f).IsAscending := by
  intro key v w
  have hpair {α : Type} {P : α → Prop} {a b : α} (ha : P a) (hb : P b) : ∀ c ∈ [a, b], P c := by
    simp [ha, hb]
  have htext {a b : String} (h : [key a, key b].Nodup) : TextKeys Text.IsEncodable [key a, key b] :=
    ⟨h, hpair ⟨_, rfl, a.toList, rfl⟩ ⟨_, rfl, b.toList, rfl⟩⟩
  have hone : Integer.isPrintable 1 = true := by decide +kernel
  have hv : v.Over Json.IsExpressible (TextKeys Text.IsEncodable) :=
    .dict (htext (by decide)) (hpair
      (.dict (htext (by decide)) (hpair (.scalar hone) (.scalar trivial))) (.scalar trivial))
  have hreordered : v.Reordered w :=
    .dict (.swap _ _ _) rfl (hpair (.scalar _)
      (.dict (.swap _ _ _) rfl (hpair (.scalar _) (.scalar _))))
  have hkeys := hv.isTextKeyed
  have hkeys' := hreordered.isTextKeyed hkeys
  obtain ⟨heq, hall⟩ := write_reordered .json .compact .auto .auto
    (Graph.unshared_ofValue hkeys) (Graph.unshared_ofValue hkeys') (Graph.holds_ofValue hkeys)
    (Graph.holds_ofValue hkeys') hkeys hreordered
  obtain ⟨bytes, hbytes, -⟩ := Json.exists_write hv (by decide) .compact true
  rw [← Graph.value_ofValue hv] at hbytes
  have hwrite : json.write { sortKeys := true } ⟨.auto, some (.ofValue v)⟩ = .ok bytes :=
    json_write_of_ok hbytes
  refine ⟨hkeys, hreordered, bytes, hwrite, heq ▸ hwrite, ?_⟩
  rcases hall bytes hwrite (by decide) (by rintro ⟨⟩) with hok | ⟨hbinary, -⟩
  · exact hok
  · cases hbinary

/-- What is written sorted need not be readable: a list may nest deeper than the reader goes, and a
    time of day short of the end of the last year is rounded to a date behind it. -/
theorem read_sorted_fails :
    (∃ bytes, binary.write { sortKeys := true } ⟨.auto, some (.ofValue (.nested 399))⟩ = .ok bytes ∧
      binary.read bytes = .error (.binary .tooDeep)) ∧
    ∃ bytes, binary.write { sortKeys := true } ⟨.auto, some (.ofValue (.date
        ⟨9999, 12, 31, 23, 59, 59, 999999⟩))⟩ = .ok bytes ∧
      binary.read bytes = .error (.binary .malformed) := by
  constructor
  · obtain ⟨bytes, hwrite, -, hread⟩ := Binary.exists_write_nested (n := 399) (by decide) (by decide) true
    exact ⟨bytes, binary_write_of_ok hwrite,
      binary_read_of_error (Binary.hasHeader_of_write hwrite) hread⟩
  · obtain ⟨bytes, hwrite, hread⟩ : ∃ bytes, Binary.write (.ofValue (.date
        ⟨9999, 12, 31, 23, 59, 59, 999999⟩)) true = .ok bytes ∧
        Binary.read bytes = .error .malformed := ⟨_, rfl, by decide +kernel⟩
    exact ⟨bytes, binary_write_of_ok hwrite,
      binary_read_of_error (Binary.hasHeader_of_write hwrite) hread⟩

end Encoding

end PropertyList
