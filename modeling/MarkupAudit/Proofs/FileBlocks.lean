import MarkupAudit.Proofs.AuditedFiles
import MarkupAudit.Proofs.FileSystem.Below
import MarkupAudit.Proofs.FileSystem.Reading

/-!
An audit of a tree file by file. Its issues are those of the files it turns to, one file after the
other (`value_tree`), and its errors are told in the same order. Which files it turns to does not
depend on the bytes of any file (`audited_put`), so a file that is bad or changed has its say about
its own issues only.
-/

namespace MarkupAudit

open FileSystem (Name Entry Cause isName isTooLong AlikeBut decodeText textOf)
open MarkupAudit.Path (along join)

namespace Audit

/-- The issues of what is read at a path. -/
def block (fs : FileSystem) (path : List Char) : List Issue :=
  match fs.readText path with
  | .ok text => Scan.content (String.ofList path) text
  | .error _ => []

/-- The issues of a file with these bytes. -/
def issuesOf (path : List Char) (content : ByteArray) : List Issue :=
  match decodeText content with
  | some text => Scan.content (String.ofList path) text
  | none => []

variable {fs fs' : FileSystem} {config : Config} {root : List Char} {names below : List Name}

/-- What gives nothing for some items can leave these out before. -/
theorem flatMap_eq_flatMap_filter {α β : Type} {items : List α} {f g : α → List β} (p : α → Bool)
    (hkept : ∀ item ∈ items, p item = true → f item = g item)
    (hdropped : ∀ item ∈ items, p item = false → f item = []) :
    items.flatMap f = (items.filter p).flatMap g := by
  induction items with
  | nil => rfl
  | cons item items ih =>
    rw [List.forall_mem_cons] at hkept hdropped
    rw [List.flatMap_cons, ih hkept.2 hdropped.2, List.filter_cons]
    cases hp : p item with
    | true => rw [hkept.1 hp, if_pos rfl, List.flatMap_cons]
    | false => rw [hdropped.1 hp, if_neg (by simp), List.nil_append]

section Blocks

theorem value_fileOrNone (fs : FileSystem) (path : List Char) :
    (fileOrNone fs path).value = block fs path := by
  rw [fileOrNone, file, block]
  cases fs.readText path <;> simp only [Except.map]

theorem value_steps (walk : List Walk.Step) : (steps fs walk).value =
    (walk.filterMap Walk.Step.scanned?).flatMap (block fs) := by
  rw [steps]
  simp only
  induction walk with
  | nil => rfl
  | cons step walk ih =>
    rw [List.map_cons, List.flatMap_cons, ih]
    cases step with
    | file path => exact congrArg (· ++ _) (value_fileOrNone fs path)
    | unreadable path cause => rfl

/-- The issues of a tree are those of its files, one file after the other. -/
theorem value_tree (fs : FileSystem) (config : Config) (root : List Char) :
    (tree fs config root).value = (audited fs config root).flatMap (block fs) := by
  rw [audited_eq, tree]
  split
  · rfl
  · exact value_steps _

end Blocks

section Targets

theorem entryAt?_append_of_resolve {access : FileSystem.Access} {top : Entry}
    (h : fs.resolve access root = .ok (.existing names top)) (below : List Name) :
    fs.entryAt? (names ++ below) = top.get? below := by
  rw [FileSystem.entryAt?, Entry.get?_append, ← FileSystem.entryAt?,
    FileSystem.entryAt?_of_resolve h]
  rfl

/-- A target that has no overlong path is read. -/
theorem IsTarget.exists_fileAt? (h : IsTarget fs config root below)
    (hlong : isTooLong (along root below) = false) :
    ∃ names, fs.fileAt? (along root below) = some names := by
  have hbelow := isName_of_isTarget h
  obtain ⟨top, found, htop, hget, hfile⟩ := h.file
  cases found with
  | file content =>
    obtain ⟨names, hresolve⟩ := FileSystem.entry_eq_ok_iff.mp htop
    have hfollow := FileSystem.resolve_along hresolve hbelow hget (by simp) hlong
    exact ⟨_, FileSystem.fileAt?_eq_some_iff.mpr ⟨content, hfollow⟩⟩
  | directory entries => exact absurd hfile id
  | link target => exact FileSystem.isFile_iff.mp hfile

/-- What a target is in the one file system it is in the other, if the file in which they differ is
there or the target is another file. -/
def Kept (fs fs' : FileSystem) (names : List Name) (path : List Char) : Prop :=
  (∃ content, fs'.entryAt? names = some (.file content)) ∨
    (isTooLong path = false ∧ fs.fileAt? path ≠ some names)

section Kept

variable {outer : List Name} {top found : Entry} (halike : AlikeBut names fs fs')
  (hkept : Kept fs fs' names (along root below))
  (hroot : fs.resolve .follow root = .ok (.existing outer top))
  (hget : top.get? below = some found)
include halike hkept hroot hget

theorem exists_file_of_eq (hbelow : ∀ name ∈ below, isName name = true)
    (hsame : outer ++ below = names) : ∃ content, fs'.entryAt? names = some (.file content) := by
  rcases hkept with hfile | ⟨hlong, hother⟩
  · exact hfile
  · have hentry : fs.entryAt? names = some found := by
      rw [← hsame, entryAt?_append_of_resolve hroot below, hget]
    have hfound := halike.isFile found hentry
    cases found with
    | file content =>
      have hfollow := FileSystem.resolve_along hroot hbelow hget (by simp) hlong
      rw [hsame] at hfollow
      exact absurd (FileSystem.fileAt?_eq_some_iff.mpr ⟨content, hfollow⟩) hother
    | directory entries => cases hfound
    | link target => cases hfound

/-- The root is the file in question only if nothing is looked for below it. -/
theorem exists_file_of_root_eq (hbelow : ∀ name ∈ below, isName name = true)
    (hsame : outer = names) : ∃ content, fs'.entryAt? names = some (.file content) := by
  have htop := halike.isFile top (hsame ▸ FileSystem.entryAt?_of_resolve hroot)
  cases below with
  | nil =>
    apply exists_file_of_eq halike hkept hroot hget hbelow
    rw [List.append_nil, hsame]
  | cons name rest =>
    cases top with
    | file content => cases hget
    | directory entries => cases htop
    | link target => cases htop

theorem exists_get?_of_alikeBut {top' : Entry} (hbelow : ∀ name ∈ below, isName name = true)
    (hroot' : fs'.resolve .follow root = .ok (.existing outer top'))
    (hfile : Walk.IsFileAt fs (along root below) found) :
    ∃ found', top'.get? below = some found' ∧ Walk.IsFileAt fs' (along root below) found' := by
  have hentry := entryAt?_append_of_resolve hroot below
  rw [hget] at hentry
  rw [← entryAt?_append_of_resolve hroot' below]
  cases found with
  | file content =>
    by_cases hsame : outer ++ below = names
    · obtain ⟨content', hcontent'⟩ := exists_file_of_eq halike hkept hroot hget hbelow hsame
      exact ⟨.file content', hsame ▸ hcontent', trivial⟩
    · exact ⟨.file content, halike.entryAt?_file hsame hentry, trivial⟩
  | directory entries => exact absurd hfile id
  | link target =>
    refine ⟨.link target, halike.entryAt?_link hentry, ?_⟩
    obtain ⟨other, hother⟩ := FileSystem.isFile_iff.mp hfile
    refine FileSystem.isFile_iff.mpr ⟨other, FileSystem.fileAt?_of_alikeBut halike ?_ hother⟩
    rintro rfl
    rcases hkept with hthere | ⟨_, hne⟩
    · exact hthere
    · exact absurd hother hne

end Kept

theorem IsTarget.of_alikeBut (halike : AlikeBut names fs fs')
    (hkept : Kept fs fs' names (along root below)) (h : IsTarget fs config root below) :
    IsTarget fs' config root below := by
  have hbelow := isName_of_isTarget h
  obtain ⟨top, found, htop, hget, hfile⟩ := h.file
  obtain ⟨outer, hroot⟩ := FileSystem.entry_eq_ok_iff.mp htop
  obtain ⟨top', hroot', _, _⟩ := FileSystem.exists_resolve_of_alikeBut halike
    (exists_file_of_root_eq halike hkept hroot hget hbelow) hroot
  obtain ⟨found', hget', hfile'⟩ :=
    exists_get?_of_alikeBut halike hkept hroot hget hbelow hroot' hfile
  have htop' := FileSystem.entry_eq_ok_iff.mpr ⟨outer, hroot'⟩
  exact ⟨⟨top', found', htop', hget', hfile'⟩, h.named, h.kept⟩

/-- Audits turn to the same ones of some paths if these are targets of both or of none. -/
theorem filter_audited_congr (root : List Char) (p : List Char → Bool)
    (h : ∀ below, p (along root below) = true →
      (IsTarget fs config root below ↔ IsTarget fs' config root below)) :
    (audited fs config root).filter p = (audited fs' config root).filter p := by
  obtain ⟨keys, heq, hsorted, hmem⟩ := exists_keys fs config root
  obtain ⟨keys', heq', hsorted', hmem'⟩ := exists_keys fs' config root
  have hkeys : keys.filter (p ∘ along root) = keys'.filter (p ∘ along root) := by
    apply keys_eq_of_mem_iff (hsorted.filter _) (hsorted'.filter _)
    intro below
    rw [List.mem_filter, List.mem_filter, hmem, hmem']
    constructor
    · intro hfound
      obtain ⟨⟨htarget, henter⟩, hp⟩ := hfound
      exact ⟨⟨(h below hp).mp htarget, henter⟩, hp⟩
    · intro hfound
      obtain ⟨⟨htarget, henter⟩, hp⟩ := hfound
      exact ⟨⟨(h below hp).mpr htarget, henter⟩, hp⟩
  rw [heq, heq', List.filter_map, List.filter_map, hkeys]

end Targets

/-- What is read at the paths that an audit turns to: the files there, but for overlong paths. -/
theorem readText_of_mem_audited {path : List Char} (h : path ∈ audited fs config root) :
    if isTooLong path then fs.readText path = .error .nameTooLong
    else ∃ names content, fs.fileAt? path = some names ∧
      fs.entryAt? names = some (.file content) ∧ fs.readText path = textOf content := by
  obtain ⟨keys, heq, _, hmem⟩ := exists_keys fs config root
  rw [heq] at h
  obtain ⟨below, hkey, rfl⟩ := List.mem_map.mp h
  obtain ⟨htarget, _⟩ := (hmem below).mp hkey
  split
  · rename_i hlong
    obtain ⟨top, _, htop, _⟩ := htarget.file
    obtain ⟨names, hroot⟩ := FileSystem.entry_eq_ok_iff.mp htop
    obtain ⟨hempty, hzero, _⟩ := FileSystem.resolve_eq_ok_iff.mp hroot
    have hbelow := isName_of_isTarget htarget
    obtain ⟨more, hmore, _⟩ := Path.exists_along_eq root hbelow
    refine FileSystem.readText_of_isTooLong hlong ?_ (FileSystem.zero_not_mem_along hbelow hzero)
    simp [hmore, hempty]
  · rename_i hlong
    obtain ⟨names, hnames⟩ := htarget.exists_fileAt? (Bool.eq_false_iff.mpr hlong)
    obtain ⟨content, hcontent⟩ := FileSystem.exists_entryAt?_of_fileAt? hnames
    exact ⟨names, content, hnames, hcontent, FileSystem.readText_of_fileAt? hnames hcontent⟩

theorem block_eq_nil_of_isTooLong {path : List Char} (h : path ∈ audited fs config root)
    (hlong : isTooLong path = true) : block fs path = [] := by
  have hread := readText_of_mem_audited h
  rw [if_pos hlong] at hread
  rw [block, hread]

theorem block_of_alikeBut (halike : AlikeBut names fs fs') {path : List Char} {other : List Name}
    (hother : fs.fileAt? path = some other) (hne : other ≠ names) :
    block fs' path = block fs path := by
  have hpath : fs.fileAt? path ≠ some names := by
    rw [hother]
    simpa using hne
  have hexists := FileSystem.pathExists_of_fileAt? hother
  rw [block, block, FileSystem.readText_eq_of_alikeBut halike hpath hexists]

section Put

variable {old : ByteArray} (h : fs.entryAt? names = some (.file old)) (bytes : ByteArray)
include h

/-- Which files an audit turns to does not depend on what they hold. -/
theorem audited_put (config : Config) (root : List Char) :
    audited (fs.put names (.file bytes)) config root = audited fs config root := by
  have hwritable := FileSystem.writable_of_entryAt? h
  have halike := FileSystem.alikeBut_put hwritable bytes
  have hiff : ∀ below, IsTarget (fs.put names (.file bytes)) config root below ↔
      IsTarget fs config root below := by
    intro below
    constructor
    · exact IsTarget.of_alikeBut halike.symm (Or.inl ⟨old, h⟩)
    · exact IsTarget.of_alikeBut halike
        (Or.inl ⟨bytes, FileSystem.entryAt?_put hwritable bytes⟩)
  have hfilter := filter_audited_congr root (fun _ => true) fun below _ => hiff below
  rwa [List.filter_true, List.filter_true] at hfilter

theorem block_put {path : List Char} (hpath : path ∈ audited fs config root) :
    block (fs.put names (.file bytes)) path =
      if fs.fileAt? path = some names then issuesOf path bytes else block fs path := by
  have hwritable := FileSystem.writable_of_entryAt? h
  have halike := FileSystem.alikeBut_put hwritable bytes
  have hthere := FileSystem.entryAt?_put hwritable bytes
  split
  · rename_i hnames
    have hafter := FileSystem.fileAt?_of_alikeBut halike (fun _ => ⟨bytes, hthere⟩) hnames
    rw [block, FileSystem.readText_of_fileAt? hafter hthere, textOf, issuesOf]
    cases decodeText bytes <;> rfl
  · rename_i hnames
    by_cases hlong : isTooLong path = true
    · have hafter := hpath
      rw [← audited_put h bytes] at hafter
      rw [block_eq_nil_of_isTooLong hpath hlong, block_eq_nil_of_isTooLong hafter hlong]
    · have hread := readText_of_mem_audited hpath
      rw [if_neg hlong] at hread
      obtain ⟨other, _, hother, _⟩ := hread
      have hne : other ≠ names := by
        rintro rfl
        exact hnames hother
      exact block_of_alikeBut halike hother hne

end Put

section LongFile

end LongFile

end Audit

end MarkupAudit
