import MarkupAudit.Proofs.FileSystem.Alike

/-!
Reading files. A path leads to the file with these or those names (`fileAt?`), and what is read there
depends on nothing but the bytes of that file. So in file systems that are alike but for one file, a
path that leads to another reads the same in both (`readText_of_alikeBut`).
-/

namespace MarkupAudit.FileSystem

/-- The names of the file that a path leads to. -/
def fileAt? (fs : FileSystem) (path : List Char) : Option (List Name) :=
  match fs.resolve .follow path with
  | .ok (.existing names (.file _)) => some names
  | _ => none

variable {fs fs' : FileSystem} {names other : List Name} {path : List Char} {entry : Entry}

theorem isFile_eq_of_alone_eq {entry' : Entry} (h : entry'.alone = entry.alone) :
    entry'.isFile = entry.isFile := by
  cases entry <;> cases entry' <;> first | rfl | cases h

theorem fileAt?_eq_some_iff : fs.fileAt? path = some names ↔
    ∃ content, fs.resolve .follow path = .ok (.existing names (.file content)) := by
  rw [fileAt?]
  split
  · rename_i found content hresolve
    simp [hresolve]
  · rename_i hno
    constructor
    · intro h
      cases h
    · intro h
      obtain ⟨content, hresolve⟩ := h
      exact absurd hresolve (hno names content)

theorem entry_eq_ok_iff {access : Access} : fs.entry access path = .ok entry ↔
    ∃ names, fs.resolve access path = .ok (.existing names entry) := by
  rw [FileSystem.entry]
  split
  · rename_i found entry' hresolve
    simp [hresolve]
  · rename_i found hresolve
    simp [hresolve]
  · rename_i cause hresolve
    simp [hresolve]

theorem pathExists_iff : fs.pathExists path = true ↔
    ∃ names entry, fs.resolve .follow path = .ok (.existing names entry) := by
  rw [pathExists]
  cases h : fs.entry .follow path with
  | ok entry =>
    obtain ⟨names, hresolve⟩ := entry_eq_ok_iff.mp h
    exact iff_of_true rfl ⟨names, entry, hresolve⟩
  | error cause =>
    refine iff_of_false (by simp [Except.isOk, Except.toBool]) ?_
    intro hfound
    obtain ⟨names, entry, hresolve⟩ := hfound
    rw [entry_eq_ok_iff.mpr ⟨names, hresolve⟩] at h
    cases h

theorem isFile_iff : fs.isFile path = true ↔ ∃ names, fs.fileAt? path = some names := by
  simp only [fileAt?_eq_some_iff]
  rw [FileSystem.isFile]
  split
  · rename_i entry h
    obtain ⟨names, hresolve⟩ := entry_eq_ok_iff.mp h
    cases entry with
    | file content => exact iff_of_true rfl ⟨names, content, hresolve⟩
    | directory entries => simp [hresolve, Entry.isFile]
    | link target => simp [hresolve, Entry.isFile]
  · rename_i cause h
    refine iff_of_false (by simp) ?_
    intro hfound
    obtain ⟨names, content, hresolve⟩ := hfound
    rw [entry_eq_ok_iff.mpr ⟨names, hresolve⟩] at h
    cases h

theorem pathExists_of_fileAt? (h : fs.fileAt? path = some names) : fs.pathExists path = true := by
  obtain ⟨content, hresolve⟩ := fileAt?_eq_some_iff.mp h
  exact pathExists_iff.mpr ⟨names, .file content, hresolve⟩

/-- The text of a file with these bytes. -/
def textOf (content : ByteArray) : Except Cause (List Char) :=
  match decodeText content with
  | some text => .ok text
  | none => .error .notText

theorem readText_of_fileAt? {content : ByteArray} (h : fs.fileAt? path = some names)
    (hcontent : fs.entryAt? names = some (.file content)) : fs.readText path = textOf content := by
  obtain ⟨found, hresolve⟩ := fileAt?_eq_some_iff.mp h
  rw [entryAt?_of_resolve hresolve, Option.some.injEq] at hcontent
  rw [readText, entry_eq_ok_iff.mpr ⟨names, hresolve⟩, hcontent]
  rfl

theorem exists_entryAt?_of_fileAt? (h : fs.fileAt? path = some names) :
    ∃ content, fs.entryAt? names = some (.file content) := by
  obtain ⟨content, hresolve⟩ := fileAt?_eq_some_iff.mp h
  exact ⟨content, entryAt?_of_resolve hresolve⟩

theorem readText_of_isTooLong (h : isTooLong path = true) (hpath : path ≠ [])
    (hzero : '\x00' ∉ path) : fs.readText path = .error .nameTooLong := by
  have hresolve : fs.resolve .follow path = .error .nameTooLong := by
    rw [resolve, if_neg hpath, if_neg hzero, if_pos h]
  have hentry : fs.entry .follow path = .error .nameTooLong := by
    rw [FileSystem.entry, hresolve]
  rw [readText, hentry]

section Alike

variable (h : AlikeBut names fs fs')
include h

/-- What a path leads to in one of the file systems it leads to in the other, if it is there. -/
theorem exists_resolve_of_alikeBut {access : Access}
    (hkept : other = names → ∃ content, fs'.entryAt? names = some (.file content))
    (hresolve : fs.resolve access path = .ok (.existing other entry)) :
    ∃ entry', fs'.resolve access path = .ok (.existing other entry') ∧
      entry'.isFile = entry.isFile ∧ (other ≠ names → entry'.alone = entry.alone) := by
  have hkept : (Place.existing other entry).names = names →
      ∃ content, fs'.entryAt? names = some (.file content) := hkept
  obtain ⟨place', hresolve', helse, hhere⟩ := resolve_of_alikeBut h hkept hresolve
  by_cases hsame : other = names
  · obtain ⟨entry', hentry', rfl⟩ := hhere hsame
    subst hsame
    refine ⟨entry', hresolve', ?_, fun hne => absurd rfl hne⟩
    rw [h.isFile' entry' hentry', h.isFile entry (entryAt?_of_resolve hresolve)]
  · have halone := helse hsame
    cases place' with
    | vacant found => cases halone
    | existing found entry' =>
      have halone : Place.existing found entry'.alone = .existing other entry.alone := halone
      obtain ⟨rfl, hentry⟩ := Place.existing.inj halone
      refine ⟨entry', hresolve', ?_, fun _ => hentry⟩
      exact isFile_eq_of_alone_eq hentry

theorem fileAt?_of_alikeBut
    (hkept : other = names → ∃ content, fs'.entryAt? names = some (.file content))
    (hfile : fs.fileAt? path = some other) : fs'.fileAt? path = some other := by
  obtain ⟨content, hresolve⟩ := fileAt?_eq_some_iff.mp hfile
  obtain ⟨entry', hresolve', hisFile, _⟩ := exists_resolve_of_alikeBut h hkept hresolve
  cases entry' with
  | file content' => exact fileAt?_eq_some_iff.mpr ⟨content', hresolve'⟩
  | directory entries' => cases hisFile
  | link target' => cases hisFile

/-- A path that does not lead to the file leads elsewhere or nowhere in both file systems. -/
theorem exists_resolve_of_fileAt?_ne (hpath : fs.fileAt? path ≠ some names)
    (hresolve : fs.resolve .follow path = .ok (.existing other entry)) :
    ∃ entry', fs'.resolve .follow path = .ok (.existing other entry') ∧
      entry'.alone = entry.alone := by
  have hne : other ≠ names := by
    rintro rfl
    have hisFile := h.isFile entry (entryAt?_of_resolve hresolve)
    cases entry with
    | file content => exact hpath (fileAt?_eq_some_iff.mpr ⟨content, hresolve⟩)
    | directory entries => cases hisFile
    | link target => cases hisFile
  obtain ⟨entry', hresolve', _, halone⟩ :=
    exists_resolve_of_alikeBut h (fun hsame => absurd hsame hne) hresolve
  exact ⟨entry', hresolve', halone hne⟩

variable (hpath : fs.fileAt? path ≠ some names) (hpath' : fs'.fileAt? path ≠ some names)
include hpath hpath'

theorem fileAt?_eq_of_alikeBut : fs'.fileAt? path = fs.fileAt? path := by
  apply Option.ext
  intro other
  constructor
  · intro hfile
    have hne : other ≠ names := fun hsame => hpath' (hsame ▸ hfile)
    exact fileAt?_of_alikeBut h.symm (fun hsame => absurd hsame hne) hfile
  · intro hfile
    have hne : other ≠ names := fun hsame => hpath (hsame ▸ hfile)
    exact fileAt?_of_alikeBut h (fun hsame => absurd hsame hne) hfile

theorem isFile_eq_of_alikeBut : fs'.isFile path = fs.isFile path := by
  rw [Bool.eq_iff_iff, isFile_iff, isFile_iff, fileAt?_eq_of_alikeBut h hpath hpath']

theorem pathExists_eq_of_alikeBut : fs'.pathExists path = fs.pathExists path := by
  rw [Bool.eq_iff_iff, pathExists_iff, pathExists_iff]
  constructor
  · intro hfound
    obtain ⟨other, entry', hresolve'⟩ := hfound
    obtain ⟨entry, hresolve, _⟩ := exists_resolve_of_fileAt?_ne h.symm hpath' hresolve'
    exact ⟨other, entry, hresolve⟩
  · intro hfound
    obtain ⟨other, entry, hresolve⟩ := hfound
    obtain ⟨entry', hresolve', _⟩ := exists_resolve_of_fileAt?_ne h hpath hresolve
    exact ⟨other, entry', hresolve'⟩

omit hpath' in
theorem readText_eq_of_alikeBut (hexists : fs.pathExists path = true) :
    fs'.readText path = fs.readText path := by
  obtain ⟨other, entry, hresolve⟩ := pathExists_iff.mp hexists
  obtain ⟨entry', hresolve', halone⟩ := exists_resolve_of_fileAt?_ne h hpath hresolve
  rw [readText, readText, entry_eq_ok_iff.mpr ⟨other, hresolve⟩,
    entry_eq_ok_iff.mpr ⟨other, hresolve'⟩]
  cases entry <;> cases entry' <;> cases halone <;> rfl

end Alike

end MarkupAudit.FileSystem
