import MarkupAudit.Proofs.FileBlocks
import MarkupAudit.Proofs.RunOutcome

/-!
Other bytes in a file. Every path leads where it led before, so an audit turns to the same files
(`path_put`), and has the same issues if the file has, where it is among them. From the same issues
the same is printed, and the same report is written (`sameReport_conclude`).
-/

namespace MarkupAudit

open CommandLine (Choices)
open FileSystem (Name AlikeBut decodeText textOf)

namespace FileSystem

theorem Place.file?_of_alone_eq {place place' : Place} (h : place'.alone = place.alone) :
    place'.file? = place.file? := by
  cases place with
  | vacant names =>
    cases place' with
    | vacant names' => exact congrArg file? h
    | existing names' entry' => cases h
  | existing names entry =>
    cases place' with
    | vacant names' => cases h
    | existing names' entry' =>
      obtain ⟨rfl, hentry⟩ := Place.existing.inj h
      cases entry <;> cases entry' <;> first | rfl | cases hentry

theorem exists_write_iff {fs : FileSystem} {path : List Char} {content : String} :
    (∃ after, fs.write path content = .ok after) ↔ ∃ names, fs.destination? path = some names := by
  simp only [write_eq_ok_iff]
  constructor
  · rintro ⟨_, names, hnames, _⟩
    exact ⟨names, hnames⟩
  · rintro ⟨names, hnames⟩
    exact ⟨_, names, hnames, rfl⟩

section There

variable {fs fs' : FileSystem} {names : List Name} {path : List Char} (h : AlikeBut names fs fs')
  (hthere : ∃ content, fs'.entryAt? names = some (.file content))
include h hthere

theorem pathExists_of_alikeBut (hexists : fs.pathExists path = true) :
    fs'.pathExists path = true := by
  obtain ⟨other, entry, hresolve⟩ := pathExists_iff.mp hexists
  obtain ⟨entry', hresolve', _⟩ := exists_resolve_of_alikeBut h (fun _ => hthere) hresolve
  exact pathExists_iff.mpr ⟨other, entry', hresolve'⟩

theorem destination?_of_alikeBut {other : List Name} (hpath : fs.destination? path = some other) :
    fs'.destination? path = some other := by
  obtain ⟨place, hresolve, hplace⟩ := destination?_eq_some_iff.mp hpath
  obtain ⟨place', hresolve', helse, hhere⟩ := resolve_of_alikeBut h (fun _ => hthere) hresolve
  refine destination?_eq_some_iff.mpr ⟨place', hresolve', ?_⟩
  have hnames := Place.names_of_file? hplace
  by_cases hsame : other = names
  · subst hsame
    obtain ⟨content, hcontent⟩ := hthere
    obtain ⟨entry, hentry, rfl⟩ := hhere hnames
    rw [hcontent, Option.some.injEq] at hentry
    rw [← hentry]
    rfl
  · exact (Place.file?_of_alone_eq (helse (hnames ▸ hsame))).trans hplace

end There

section Put

variable {fs : FileSystem} {names : List Name} {old : ByteArray}
  (h : fs.entryAt? names = some (.file old)) (bytes : ByteArray)
include h

theorem fileAt?_put (path : List Char) :
    (fs.put names (.file bytes)).fileAt? path = fs.fileAt? path := by
  have hwritable := writable_of_entryAt? h
  have halike := alikeBut_put hwritable bytes
  apply Option.ext
  intro other
  constructor
  · exact fileAt?_of_alikeBut halike.symm fun _ => ⟨old, h⟩
  · exact fileAt?_of_alikeBut halike fun _ => ⟨bytes, entryAt?_put hwritable bytes⟩

theorem isFile_put (path : List Char) :
    (fs.put names (.file bytes)).isFile path = fs.isFile path := by
  rw [Bool.eq_iff_iff, isFile_iff, isFile_iff, fileAt?_put h]

theorem pathExists_put (path : List Char) :
    (fs.put names (.file bytes)).pathExists path = fs.pathExists path := by
  have hwritable := writable_of_entryAt? h
  have halike := alikeBut_put hwritable bytes
  rw [Bool.eq_iff_iff]
  constructor
  · exact pathExists_of_alikeBut halike.symm ⟨old, h⟩
  · exact pathExists_of_alikeBut halike ⟨bytes, entryAt?_put hwritable bytes⟩

theorem destination?_put (path : List Char) :
    (fs.put names (.file bytes)).destination? path = fs.destination? path := by
  have hwritable := writable_of_entryAt? h
  have halike := alikeBut_put hwritable bytes
  apply Option.ext
  intro other
  constructor
  · exact destination?_of_alikeBut halike.symm ⟨old, h⟩
  · exact destination?_of_alikeBut halike ⟨bytes, entryAt?_put hwritable bytes⟩

theorem decodeText_of_readText {path text : List Char} (hpath : fs.fileAt? path = some names)
    (hread : fs.readText path = .ok text) : decodeText old = some text := by
  rw [readText_of_fileAt? hpath h, textOf] at hread
  cases hdecode : decodeText old with
  | none =>
    rw [hdecode] at hread
    cases hread
  | some found =>
    rw [hdecode] at hread
    exact congrArg some (Except.ok.inj hread)

theorem readText_put {path : List Char} (hpath : fs.fileAt? path = some names) :
    (fs.put names (.file bytes)).readText path = textOf bytes :=
  readText_of_fileAt? ((fileAt?_put h bytes path).trans hpath)
    (entryAt?_put (writable_of_entryAt? h) bytes)

end Put

end FileSystem

namespace Audit

/-- The files that an audit turned to. -/
def scanned (logged : Logged (List Issue)) : List (List Char) :=
  logged.log.filterMap Event.audited?

variable {fs : FileSystem} {config : Config} {path : List Char} {names : List Name}

theorem scanned_fileOrNone (fs : FileSystem) (path : List Char) :
    scanned (fileOrNone fs path) = [path] := by
  rw [scanned, fileOrNone]
  cases file fs path <;> rfl

theorem issuesOf_of_decodeText {content : ByteArray} {text : List Char}
    (h : decodeText content = some text) (path : List Char) :
    issuesOf path content = Scan.content (String.ofList path) text := by
  rw [issuesOf, h]

theorem block_of_fileAt? {content : ByteArray} (hfile : fs.fileAt? path = some names)
    (h : fs.entryAt? names = some (.file content)) : block fs path = issuesOf path content := by
  rw [block, FileSystem.readText_of_fileAt? hfile h, textOf, issuesOf]
  cases decodeText content <;> rfl

section Put

variable {old : ByteArray} (h : fs.entryAt? names = some (.file old)) (bytes : ByteArray)
include h

theorem block_put_of_isFile (hpath : fs.isFile path = true)
    (hsame : fs.fileAt? path = some names → issuesOf path bytes = issuesOf path old) :
    block (fs.put names (.file bytes)) path = block fs path := by
  have hwritable := FileSystem.writable_of_entryAt? h
  obtain ⟨other, hother⟩ := FileSystem.isFile_iff.mp hpath
  by_cases hne : other = names
  · subst hne
    have hother' := (FileSystem.fileAt?_put h bytes path).trans hother
    rw [block_of_fileAt? hother' (FileSystem.entryAt?_put hwritable bytes),
      block_of_fileAt? hother h, hsame hother]
  · exact block_of_alikeBut (FileSystem.alikeBut_put hwritable bytes) hother hne

theorem value_tree_put {root : List Char}
    (hsame : ∀ file ∈ audited fs config root, fs.fileAt? file = some names →
      issuesOf file bytes = issuesOf file old) :
    (tree (fs.put names (.file bytes)) config root).value = (tree fs config root).value := by
  rw [value_tree, value_tree, audited_put h]
  apply List.flatMap_congr
  intro file hfile
  rw [block_put h bytes hfile]
  split
  · rename_i hnames
    rw [block_of_fileAt? hnames h, hsame file hfile hnames]
  · rfl

/-- An audit turns to the same files, and finds the same if the file has the same issues. -/
theorem path_put {logged : Logged (List Issue)} (hpath : Audit.path fs config path = some logged) :
    ∃ logged', Audit.path (fs.put names (.file bytes)) config path = some logged' ∧
      scanned logged' = scanned logged ∧
      ((∀ file ∈ scanned logged, fs.fileAt? file = some names →
        issuesOf file bytes = issuesOf file old) → logged'.value = logged.value) := by
  rw [Audit.path] at hpath ⊢
  rw [FileSystem.pathExists_put h, FileSystem.isFile_put h]
  split at hpath
  · cases hpath
  rename_i hexists
  rw [if_neg hexists]
  split at hpath
  · rename_i hfile
    cases hpath
    rw [if_pos hfile]
    refine ⟨_, rfl, ?_, ?_⟩
    · rw [scanned_fileOrNone, scanned_fileOrNone]
    · intro hsame
      rw [scanned_fileOrNone] at hsame
      rw [value_fileOrNone, value_fileOrNone]
      exact block_put_of_isFile h bytes hfile (hsame path (List.mem_singleton_self path))
  · rename_i hfile
    cases hpath
    rw [if_neg hfile]
    exact ⟨_, rfl, audited_put h bytes config path, fun hsame => value_tree_put h bytes hsame⟩

end Put

end Audit

namespace Run

/-- Two runs that report the same. -/
structure SameReport (first second : Outcome) : Prop where
  status : second.status = first.status
  output : second.output = first.output
  written : second.written = first.written
  text : ∀ target, first.written = some target →
    second.fs.readText target = first.fs.readText target

theorem sameReport_of_unwritten {first second : Outcome} (hstatus : second.status = first.status)
    (houtput : second.output = first.output) (h : first.written = none)
    (h' : second.written = none) : SameReport first second := by
  refine ⟨hstatus, houtput, h'.trans h.symm, ?_⟩
  intro target htarget
  rw [h] at htarget
  cases htarget

/-- Reports of the same issues are the same where they go to the same place. -/
theorem sameReport_conclude {fs fs' : FileSystem}
    (h : ∀ target, fs'.destination? target = fs.destination? target) (choices : Choices)
    (issues : List Issue) (log log' : List Event) :
    SameReport (conclude fs choices issues log) (conclude fs' choices issues log') := by
  have hreports := reports_conclude fs choices issues log
  have hreports' := reports_conclude fs' choices issues log'
  have hsave (target : List Char) :
      (∃ after, (Report.ofIssues issues).save fs' target = .ok after) ↔
        ∃ after, (Report.ofIssues issues).save fs target = .ok after := by
    simp only [Report.save, FileSystem.exists_write_iff, h]
  have hwritten : (conclude fs' choices issues log').written =
      (conclude fs choices issues log).written := by
    apply Option.ext
    intro target
    rw [hreports'.written, hreports.written, hsave]
  refine ⟨?_, ?_, hwritten, ?_⟩
  · have hzero : (conclude fs' choices issues log').status = 0 ↔
        (conclude fs choices issues log).status = 0 := by
      simp only [status_conclude_eq_zero_iff, hsave]
    have hle := status_conclude_le fs choices issues log
    have hle' := status_conclude_le fs' choices issues log'
    omega
  · rw [hreports'.output, hreports.output, hwritten]
  · intro target htarget
    rw [hreports.text target htarget, hreports'.text target (hwritten.trans htarget)]

end Run

end MarkupAudit
