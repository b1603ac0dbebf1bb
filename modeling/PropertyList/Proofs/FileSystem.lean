/-
  PropertyList.Proofs.FileSystem

  What a write changes, and what reading and writing under a path depend on.  A
  write changes the one place that its path names, or nothing.  The walk along a
  path only asks which places are directories, so two file systems that differ in
  the contents of one file are walked alike.  A name without a slash leads to itself
  in the working directory.
-/
import Mathlib.Data.String.Basic
import PropertyList.FileSystem

namespace PropertyList.FileSystem

variable {fs gs : FileSystem} {p q : Place} {path : String} {bytes : List UInt8}

/-! ## Places -/

theorem entryAt?_of_ne_nil (hp : p ≠ []) : fs.entryAt? p = fs.entries.lookup p := by
  rw [entryAt?, if_neg (by simpa using hp)]

/-- A place of a list of entries whose contents were replaced. -/
theorem lookup_replace (entries : List (Place × Entry)) (e : Entry) :
    (entries.map fun x => if x.1 = p then (p, e) else x).lookup q =
      if q = p then (entries.lookup p).map fun _ => e else entries.lookup q := by
  induction entries with
  | nil => simp
  | cons x rest ih =>
    obtain ⟨k, d⟩ := x
    rw [List.map_cons, List.lookup_cons]
    by_cases hk : k = p
    · subst hk
      by_cases hq : q = k
      · simp [hq]
      · simp [hq, beq_false_of_ne hq, ih, List.lookup_cons]
    · by_cases hq : q = p
      · subst hq
        simp [hk, beq_false_of_ne (Ne.symm hk), ih, List.lookup_cons]
      · simp [hk, hq, ih, List.lookup_cons]

/-- A file that was put at a place is there, and all else is as it was. -/
theorem entryAt?_putFile (hp : p ≠ []) (q : Place) :
    (fs.putFile p bytes).entryAt? q = if q = p then some (.file bytes) else fs.entryAt? q := by
  by_cases hroot : q = []
  · subst hroot
    rw [if_neg (Ne.symm hp)]
    rfl
  · rw [entryAt?_of_ne_nil hroot, entryAt?_of_ne_nil hroot, putFile, entryAt?_of_ne_nil hp]
    cases hold : fs.entries.lookup p with
    | some e =>
      rw [Option.isSome_some, if_pos rfl, lookup_replace, hold]
      rfl
    | none =>
      rw [Option.isSome_none, if_neg Bool.false_ne_true, List.lookup_append]
      by_cases hq : q = p
      · subst hq
        simp [hold]
      · simp [hq, List.lookup_cons, beq_false_of_ne hq]

/-- There are files and directories, and nothing else. -/
def IsPlain (fs : FileSystem) : Prop :=
  ∀ p e, fs.entryAt? p = some e → e = .directory ∨ ∃ bytes, e = .file bytes

theorem isPlain_of_forall
    (h : ∀ x ∈ fs.entries, x.2 = .directory ∨ ∃ bytes, x.2 = .file bytes) : fs.IsPlain := by
  intro p e he
  rw [entryAt?] at he
  split at he
  · exact .inl (Option.some.inj he).symm
  · obtain ⟨front, behind, hsplit, -⟩ := List.lookup_eq_some_iff.mp he
    exact h (p, e) (hsplit ▸ List.mem_append_right _ List.mem_cons_self)

/-- The place that a path names, whether or not something is there. -/
def place? (fs : FileSystem) (path : String) : Option Place :=
  match fs.target path with
  | .error _ => none
  | .ok (.directory p) => some p
  | .ok (.named parent name _) => some (parent ++ [name])

/-! ## Names -/

section

open String (ofList utf8Len)

variable {name : String}

/-- If no slash is left, all characters from the start on are one component. -/
theorem splitOnAux_slash {front rest : List Char} (h : '/' ∉ rest) :
    (ofList (front ++ rest)).splitOnAux "/" 0 ⟨utf8Len front⟩ 0 [] = [ofList (front ++ rest)] := by
  -- the component begins at the start of the text all along, and only the place in it moves on
  induction rest generalizing front with
  | nil =>
    have hend : (⟨utf8Len front⟩ : String.Pos.Raw) = (ofList (front ++ [])).rawEndPos := by
      rw [List.append_nil, String.rawEndPos_ofList]
    rw [String.splitOnAux, if_pos ((String.atEnd_of_valid front []).mpr rfl), hend,
      String.extract_zero_rawEndPos]
    rfl
  | cons c rest ih =>
    rw [List.mem_cons, not_or] at h
    have hgoes : ¬ String.Pos.Raw.atEnd (ofList (front ++ c :: rest)) ⟨utf8Len front⟩ = true := by
      rw [String.atEnd_of_valid]
      exact List.cons_ne_nil c rest
    have hother : ¬ (String.Pos.Raw.get (ofList (front ++ c :: rest)) ⟨utf8Len front⟩ ==
        String.Pos.Raw.get "/" 0) = true := by
      rw [String.get_of_valid, beq_iff_eq]
      exact fun heq => h.1 heq.symm
    rw [String.splitOnAux, if_neg hgoes, if_neg hother]
    show String.splitOnAux _ "/" 0 (String.Pos.Raw.next _ ⟨utf8Len front⟩) 0 [] = _
    rw [String.next_of_valid]
    have hnext := @ih (front ++ [c]) h.2
    rw [String.utf8Len_append, String.utf8Len_cons, String.utf8Len_nil, Nat.zero_add,
      List.append_assoc] at hnext
    exact hnext

/-- A path without a slash is one component. -/
theorem splitOn_slash (h : '/' ∉ path.toList) : path.splitOn "/" = [path] := by
  have hpath := @splitOnAux_slash [] _ h
  rw [List.nil_append, String.ofList_toList] at hpath
  exact hpath

/-- A name leads to itself in the working directory, whatever is there. -/
theorem target_of_name (hslash : '/' ∉ name.toList)
    (hdots : ¬ (name = "" ∨ name = "." ∨ name = "..")) (hsize : name.utf8ByteSize < maximumPath) :
    fs.target name = .ok (.named fs.workingDirectory name false) := by
  have hrelative : ¬ name.startsWith "/" = true := by
    rw [String.startsWith_string_iff]
    exact fun hstarts => hslash (hstarts.subset List.mem_cons_self)
  rw [target, if_neg (Nat.not_le.mpr hsize), if_neg hrelative, splitOn_slash hslash, walk,
    List.all_nil, if_pos rfl, if_neg hdots]
  rfl

theorem place?_of_name (hslash : '/' ∉ name.toList)
    (hdots : ¬ (name = "" ∨ name = "." ∨ name = "..")) (hsize : name.utf8ByteSize < maximumPath) :
    fs.place? name = some (fs.workingDirectory ++ [name]) := by
  rw [place?, target_of_name hslash hdots hsize]

end

/-! ## Writing -/

/-- A path names a place for a file: its last component is a name that is not too long, with no
    slash behind it, and there is no directory of that name. -/
def NamesFile (fs : FileSystem) (path : String) (p : Place) : Prop :=
  ∃ parent name, fs.target path = .ok (.named parent name false) ∧
    name.utf8ByteSize ≤ maximumName ∧ p = parent ++ [name] ∧ fs.entryAt? p ≠ some .directory

theorem NamesFile.ne_nil (h : fs.NamesFile path p) : p ≠ [] := by
  obtain ⟨parent, name, -, -, rfl, -⟩ := h
  simp

theorem lookUp_eq_ok {name : String} (h : name.utf8ByteSize ≤ maximumName) (p : Place) :
    fs.lookUp p name = .ok (fs.entryAt? (p ++ [name])) := by
  rw [lookUp, if_neg (Nat.not_lt.mpr h)]

/-- Among files and directories, a write succeeds under the paths that name a place for a file. -/
theorem write_of_namesFile (hfs : fs.IsPlain) (h : fs.NamesFile path p) :
    fs.write path bytes = .ok (fs.putFile p bytes) := by
  obtain ⟨parent, name, htarget, hname, rfl, hdirectory⟩ := h
  rw [write, htarget]
  simp only [lookUp_eq_ok hname]
  cases hentry : fs.entryAt? (parent ++ [name]) with
  | none => rfl
  | some e =>
    rcases hfs _ _ hentry with rfl | ⟨old, rfl⟩
    · exact absurd hentry hdirectory
    · rfl

/-- Under all other paths a write fails. -/
theorem exists_write_eq_error (h : ¬ ∃ p, fs.NamesFile path p) :
    ∃ e, fs.write path bytes = .error e := by
  rw [write]
  cases htarget : fs.target path with
  | error e => exact ⟨e, rfl⟩
  | ok t =>
    cases t with
    | directory p => exact ⟨_, rfl⟩
    | named parent name slash =>
      cases slash with
      | true => exact ⟨_, rfl⟩
      | false =>
        by_cases hname : name.utf8ByteSize ≤ maximumName
        · simp only [lookUp_eq_ok hname]
          cases hentry : fs.entryAt? (parent ++ [name]) with
          | none => exact absurd ⟨_, parent, name, htarget, hname, rfl, by simp [hentry]⟩ h
          | some e =>
            -- any other entry would have been a file that is named
            by_cases he : e = .directory
            · subst he
              exact ⟨_, rfl⟩
            · exact absurd ⟨_, parent, name, htarget, hname, rfl, by simpa [hentry] using he⟩ h
        · simp only [lookUp, if_pos (Nat.lt_of_not_le hname)]
          exact ⟨_, rfl⟩

/-! ## Two file systems that differ at one place -/

/-- A name of what is no directory leads nowhere. -/
theorem descend_of_not_directory {name : String} {e : Entry}
    (hentry : fs.entryAt? (p ++ [name]) = some e) (he : e ≠ .directory) :
    fs.descend p name =
      if name = "" ∨ name = "." then .ok p
      else if name = ".." then .ok p.dropLast
      else if maximumName < name.utf8ByteSize then .error .nameTooLong else .error .notDirectory := by
  simp only [descend, lookUp, hentry]
  congr 2
  split
  · rfl
  · cases e <;> first | rfl | exact absurd rfl he

/-- Two file systems have the same entries but for one place, which is no directory in either. -/
structure AgreesBut (p : Place) (fs gs : FileSystem) : Prop where
  workingDirectory : gs.workingDirectory = fs.workingDirectory
  entry : ∀ q, q ≠ p → gs.entryAt? q = fs.entryAt? q
  left : ∃ e, fs.entryAt? p = some e ∧ e ≠ .directory
  right : ∃ e, gs.entryAt? p = some e ∧ e ≠ .directory

namespace AgreesBut

theorem lookUp_eq (h : AgreesBut p fs gs) {q : Place} {name : String} (hq : q ++ [name] ≠ p) :
    gs.lookUp q name = fs.lookUp q name := by
  rw [lookUp, lookUp, h.entry _ hq]

theorem descend_eq (h : AgreesBut p fs gs) (q : Place) (name : String) :
    gs.descend q name = fs.descend q name := by
  by_cases hq : q ++ [name] = p
  · -- the place where they differ is no directory, so the walk ends there in both
    obtain ⟨e, he, hdirectory⟩ := h.left
    obtain ⟨d, hd, hdirectory'⟩ := h.right
    rw [← hq] at he hd
    rw [descend_of_not_directory he hdirectory, descend_of_not_directory hd hdirectory']
  · rw [descend, descend, h.lookUp_eq hq]

theorem walk_eq (h : AgreesBut p fs gs) (names : List String) (q : Place) :
    gs.walk q names = fs.walk q names := by
  induction names generalizing q with
  | nil => rfl
  | cons name rest ih =>
    rw [walk, walk, h.descend_eq]
    cases fs.descend q name with
    | error e => rfl
    | ok q' => simp only [ih q', bind, Except.bind]

theorem target_eq (h : AgreesBut p fs gs) (path : String) : gs.target path = fs.target path := by
  rw [target, target, h.workingDirectory, h.walk_eq]

theorem putFile (h : AgreesBut p fs gs) (hroot : q ≠ []) (hq : q ≠ p) (bytes : List UInt8) :
    AgreesBut p (fs.putFile q bytes) (gs.putFile q bytes) := by
  have hkeep (fs : FileSystem) : (fs.putFile q bytes).workingDirectory = fs.workingDirectory := by
    rw [FileSystem.putFile]
    split <;> rfl
  refine ⟨?_, fun r hr => ?_, ?_, ?_⟩
  · rw [hkeep, hkeep, h.workingDirectory]
  · rw [entryAt?_putFile hroot, entryAt?_putFile hroot, h.entry r hr]
  · rw [entryAt?_putFile hroot, if_neg (Ne.symm hq)]
    exact h.left
  · rw [entryAt?_putFile hroot, if_neg (Ne.symm hq)]
    exact h.right

/-- A write under a path that names another place has the same result in both. -/
theorem write (h : AgreesBut p fs gs) (hpath : fs.place? path ≠ some p) (bytes : List UInt8) :
    (∃ e, fs.write path bytes = .error e ∧ gs.write path bytes = .error e) ∨
    ∃ fs' gs', fs.write path bytes = .ok fs' ∧ gs.write path bytes = .ok gs' ∧
      AgreesBut p fs' gs' := by
  rw [FileSystem.write, FileSystem.write, h.target_eq]
  cases htarget : fs.target path with
  | error e => exact .inl ⟨e, rfl, rfl⟩
  | ok t =>
    cases t with
    | directory q => exact .inl ⟨_, rfl, rfl⟩
    | named parent name slash =>
      cases slash with
      | true => exact .inl ⟨_, rfl, rfl⟩
      | false =>
        -- the two agree at the place that is written, so the same case applies to both
        have hq : parent ++ [name] ≠ p := fun e => hpath (by simp only [place?, htarget, e])
        have hput := h.putFile (q := parent ++ [name]) (by simp) hq bytes
        simp only [h.lookUp_eq hq]
        cases fs.lookUp parent name with
        | error e => exact .inl ⟨e, rfl, rfl⟩
        | ok entry =>
          match entry with
          | none => exact .inr ⟨_, _, rfl, rfl, hput⟩
          | some (.file old) => exact .inr ⟨_, _, rfl, rfl, hput⟩
          | some .directory => exact .inl ⟨_, rfl, rfl⟩
          | some .full => exact .inl ⟨_, rfl, rfl⟩
          | some .null => exact .inr ⟨_, _, rfl, rfl, h⟩
          | some (.pipe sent) => exact .inr ⟨_, _, rfl, rfl, h⟩

end AgreesBut

/-! ## Reading -/

theorem openEntry_eq_regular_iff {slash : Bool} {e : Option Entry} :
    openEntry slash e = .regular bytes ↔ slash = false ∧ e = some (.file bytes) := by
  cases slash <;> rcases e with _ | (_ | _ | _ | _ | _) <;> simp [openEntry]

theorem openForReading_of_named {parent : Place} {name : String} {slash : Bool}
    (htarget : fs.target path = .ok (.named parent name slash))
    (hname : name.utf8ByteSize ≤ maximumName) :
    fs.openForReading path = openEntry slash (fs.entryAt? (parent ++ [name])) := by
  rw [openForReading, htarget]
  simp only [lookUp_eq_ok hname]

/-- A path under which there is a regular file leads to a name, which is the name of that file. -/
theorem exists_named_of_regular (h : fs.openForReading path = .regular bytes) :
    ∃ parent name, fs.target path = .ok (.named parent name false) ∧
      name.utf8ByteSize ≤ maximumName ∧ fs.entryAt? (parent ++ [name]) = some (.file bytes) := by
  rw [openForReading] at h
  split at h
  · cases h
  · cases h
  · next parent name slash htarget =>
    by_cases hname : name.utf8ByteSize ≤ maximumName
    · simp only [lookUp_eq_ok hname] at h
      obtain ⟨rfl, hentry⟩ := openEntry_eq_regular_iff.mp h
      exact ⟨parent, name, htarget, hname, hentry⟩
    · simp only [lookUp, if_pos (Nat.lt_of_not_le hname)] at h
      cases h

/-- A pipe in the place of a file is opened under the path of the file. -/
theorem AgreesBut.openForReading_pipe (h : AgreesBut p fs gs)
    (hfile : fs.openForReading path = .regular bytes) (hplace : fs.place? path = some p)
    {sent : List UInt8} (hpipe : gs.entryAt? p = some (.pipe sent)) :
    gs.openForReading path = .stream { bytes := sent } := by
  obtain ⟨parent, name, htarget, hname, -⟩ := exists_named_of_regular hfile
  simp only [place?, htarget] at hplace
  obtain rfl := Option.some.inj hplace
  rw [openForReading_of_named ((h.target_eq path).trans htarget) hname, hpipe]
  rfl

end PropertyList.FileSystem
