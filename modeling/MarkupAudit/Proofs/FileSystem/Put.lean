import MarkupAudit.Proofs.FileSystem.Entry

/-!
Putting a file into a file system. Its names lead to the file afterwards (`entryAt?_put`), and other
names lead to what they led to before, a directory being the same when it has other entries
(`alone_entryAt?_put`).
-/

namespace MarkupAudit.FileSystem

namespace Entry

/-- An entry without the entries that it holds. -/
def alone : Entry → Entry
  | directory _ => directory []
  | entry => entry

variable {new entry found : Entry} {entries : List (Name × Entry)} {outer names : List Name}
  {part name : Name}

theorem exists_child_of_get?_cons (h : entry.get? (name :: names) = some found) :
    ∃ entries child, entry = directory entries ∧ find? name entries = some child ∧
      child.get? names = some found := by
  cases entry with
  | file content => cases h
  | link target => cases h
  | directory entries =>
    obtain ⟨child, hchild, hfound⟩ := Option.bind_eq_some_iff.mp h
    exact ⟨entries, child, rfl, hchild, hfound⟩

theorem get?_nil (entry : Entry) : entry.get? [] = some entry := by
  cases entry <;> rfl

theorem get?_eq_none_of_not_directory (h : entry.isDirectory = false) (hne : names ≠ []) :
    entry.get? names = none := by
  obtain ⟨name, more, rfl⟩ := List.exists_cons_of_ne_nil hne
  cases entry with
  | file content => rfl
  | link target => rfl
  | directory entries => cases h

theorem get?_put (h : entry.get? outer = some (directory entries)) :
    (put new (outer ++ [part]) entry).get? (outer ++ [part]) = some new := by
  induction outer generalizing entry with
  | nil =>
    rw [get?_nil, Option.some.injEq] at h
    rw [h, List.nil_append, put, get?, find?_change, if_pos rfl, Option.bind_some, put, get?_nil]
  | cons first outer ih =>
    obtain ⟨around, child, rfl, hchild, hfound⟩ := exists_child_of_get?_cons h
    rw [List.cons_append, put, get?, find?_change, if_pos rfl, hchild]
    exact ih hfound

theorem alone_get?_put (hnew : new.isDirectory = false)
    (h : entry.get? outer = some (directory entries))
    (hold : ∀ old, find? part entries = some old → old.isDirectory = false)
    (hne : names ≠ outer ++ [part]) :
    ((put new (outer ++ [part]) entry).get? names).map alone = (entry.get? names).map alone := by
  induction outer generalizing entry names with
  | nil =>
    rw [get?_nil, Option.some.injEq] at h
    rw [h, List.nil_append, put]
    cases names with
    | nil => rfl
    | cons name more =>
      rw [get?, get?, find?_change]
      split
      · rename_i hname
        have hmore : more ≠ [] := by
          rintro rfl
          exact hne (by rw [hname]; rfl)
        -- There is nothing below the new entry, as there was nothing below the old one.
        rw [Option.bind_some, put, get?_eq_none_of_not_directory hnew hmore, hname]
        cases hfind : find? part entries with
        | none => rfl
        | some old => rw [Option.bind_some, get?_eq_none_of_not_directory (hold old hfind) hmore]
      · rfl
  | cons first outer ih =>
    obtain ⟨around, child, rfl, hchild, hfound⟩ := exists_child_of_get?_cons h
    rw [List.cons_append, put]
    cases names with
    | nil => rfl
    | cons name more =>
      rw [get?, get?, find?_change]
      split
      · rename_i hname
        have hmore : more ≠ outer ++ [part] := by
          rintro rfl
          exact hne (by rw [hname]; rfl)
        rw [hname, hchild]
        exact ih hfound hmore
      · rfl

theorem change_of_find? {f : Option Entry → Entry} (hfind : find? name entries = some found)
    (hf : f (some found) = found) : change name f entries = entries := by
  induction entries with
  | nil => cases hfind
  | cons first entries ih =>
    obtain ⟨n, entry⟩ := first
    rw [change]
    by_cases hn : n = name
    · have hentry : find? name ((n, entry) :: entries) = some entry := by simp [find?, hn]
      rw [hentry, Option.some.injEq] at hfind
      rw [if_pos hn, hfind, hf]
    · have hrest : find? name ((n, entry) :: entries) = find? name entries := by simp [find?, hn]
      rw [hrest] at hfind
      rw [if_neg hn, ih hfind]

/-- Putting what is there changes nothing. -/
theorem put_of_get? (h : entry.get? names = some new) : put new names entry = entry := by
  induction names generalizing entry with
  | nil =>
    rw [get?_nil, Option.some.injEq] at h
    exact h.symm
  | cons name names ih =>
    obtain ⟨entries, child, rfl, hfind, hget⟩ := exists_child_of_get?_cons h
    rw [put, change_of_find? hfind (ih hget)]

end Entry

variable {fs : FileSystem} {names other : List Name} {new : Entry}

theorem home_put (fs : FileSystem) (names : List Name) (new : Entry) :
    (fs.put names new).home = fs.home := by
  unfold put
  split
  · split <;> rfl
  · rfl

theorem top_put (hnew : new.isSound = true) (hnames : ∀ name ∈ names, isName name = true)
    (hne : names ≠ []) : (fs.put names new).top = Entry.put new names fs.top := by
  unfold put
  rw [dif_pos ⟨hnew, hnames⟩]
  split
  · rename_i entries hput
    exact hput.symm
  · rename_i hput
    obtain ⟨name, more, rfl⟩ := List.exists_cons_of_ne_nil hne
    rw [top, Entry.put] at hput
    exact absurd rfl (hput _)

/-- Names that can be the names of a file: their directory is there, and at most a file stands where
they lead to. -/
def Writable (fs : FileSystem) (names : List Name) : Prop :=
  (∀ name ∈ names, isName name = true) ∧ ∃ outer part entries, names = outer ++ [part] ∧
    fs.entryAt? outer = some (.directory entries) ∧
    ∀ old, Entry.find? part entries = some old → old.isFile = true

theorem entryAt?_put (h : fs.Writable names) (content : ByteArray) :
    (fs.put names (.file content)).entryAt? names = some (.file content) := by
  obtain ⟨hnames, outer, part, entries, rfl, houter, hold⟩ := h
  rw [entryAt?, top_put rfl hnames (by simp)]
  exact Entry.get?_put houter

/-- Nothing else changes. -/
theorem alone_entryAt?_put (h : fs.Writable names) (content : ByteArray) (hne : other ≠ names) :
    ((fs.put names (.file content)).entryAt? other).map Entry.alone =
      (fs.entryAt? other).map Entry.alone := by
  obtain ⟨hnames, outer, part, entries, rfl, houter, hold⟩ := h
  rw [entryAt?, top_put rfl hnames (by simp)]
  refine Entry.alone_get?_put rfl houter ?_ hne
  intro old hfind
  have hfile := hold old hfind
  cases old with
  | file content => rfl
  | link target => rfl
  | directory entries => cases hfile

theorem writable_of_entryAt? {content : ByteArray}
    (h : fs.entryAt? names = some (.file content)) : fs.Writable names := by
  refine ⟨Entry.isName_of_get? fs.isSound_top h, ?_⟩
  rcases List.eq_nil_or_concat names with rfl | ⟨outer, part, rfl⟩
  · cases h
  · rw [List.concat_eq_append, entryAt?, Entry.get?_append, ← entryAt?,
      Option.bind_eq_some_iff] at h
    obtain ⟨around, houter, hget⟩ := h
    obtain ⟨entries, child, rfl, hfind, hchild⟩ := Entry.exists_child_of_get?_cons hget
    rw [Entry.get?_nil, Option.some.injEq] at hchild
    subst hchild
    refine ⟨outer, part, entries, List.concat_eq_append, houter, ?_⟩
    intro old hold
    rw [hfind, Option.some.injEq] at hold
    rw [← hold]
    rfl

theorem put_of_entryAt? {content : ByteArray} (h : fs.entryAt? names = some (.file content)) :
    fs.put names (.file content) = fs := by
  have hput : Entry.put (.file content) names fs.top = .directory fs.entries :=
    Entry.put_of_get? h
  unfold put
  rw [dif_pos ⟨rfl, Entry.isName_of_get? fs.isSound_top h⟩]
  split
  · rename_i entries hentries
    rw [hput] at hentries
    cases hentries
    rfl
  · rfl

theorem isFile_of_writable {old : Entry} (h : fs.Writable names)
    (hold : fs.entryAt? names = some old) : old.isFile = true := by
  obtain ⟨_, outer, part, entries, rfl, houter, hfile⟩ := h
  rw [entryAt?, Entry.get?_append, ← entryAt?, houter, Option.bind_some, Entry.get?,
    Option.bind_eq_some_iff] at hold
  obtain ⟨found, hfind, hget⟩ := hold
  rw [Entry.get?_nil, Option.some.injEq] at hget
  exact hget ▸ hfile found hfind

end MarkupAudit.FileSystem
