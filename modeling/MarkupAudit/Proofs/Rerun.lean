import MarkupAudit.Proofs.FileBlocks
import MarkupAudit.Proofs.RunOutcome

/-!
Runs that are made again. All that a run changes is the file of its report. If it reads nothing from
there, it loads the same configuration and finds the same issues afterwards, whether the file was
there before or not; so the same report is printed, and written over itself (`run_again`).
-/

namespace MarkupAudit

open CommandLine (Choices Request)
open FileSystem (Name isTooLong AlikeBut)
open MarkupAudit.Path (along)

theorem Config.load_of_alikeBut {fs fs' : FileSystem} {names : List Name} {path : List Char}
    (halike : AlikeBut names fs fs') (hpath : fs.fileAt? path ≠ some names)
    (hpath' : fs'.fileAt? path ≠ some names) : Config.load fs' path = Config.load fs path := by
  rw [load, load, FileSystem.pathExists_eq_of_alikeBut halike hpath hpath']
  by_cases hexists : fs.pathExists path = true
  · rw [FileSystem.readText_eq_of_alikeBut halike hpath hexists]
  · rw [if_pos (by simpa using hexists), if_pos (by simpa using hexists)]

namespace Audit

variable {fs fs' : FileSystem} {names below : List Name} {config : Config} {root : List Char}

/-- Directories have shorter paths than what is below them. -/
theorem canEnter_of_along (hbelow : ∀ name ∈ below, FileSystem.isName name = true)
    (hlong : isTooLong (along root below) = false) : CanEnter root below := by
  rintro front rest rfl _
  rw [List.forall_mem_append] at hbelow
  apply FileSystem.isTooLong_of_along hbelow.2
  rwa [← Path.along_append]

/-- Overlong paths have no part in the issues. -/
theorem flatMap_block_filter (fs : FileSystem) (config : Config) (root : List Char) :
    (audited fs config root).flatMap (block fs) =
      ((audited fs config root).filter (!isTooLong ·)).flatMap (block fs) := by
  apply flatMap_eq_flatMap_filter _ fun _ _ _ => rfl
  intro path hpath hlong
  exact block_eq_nil_of_isTooLong hpath (by simpa using hlong)

section There

variable (halike : AlikeBut names fs fs')
  (hthere : ∃ content, fs'.entryAt? names = some (.file content))
include halike hthere

/-- When a file comes to be there that the audit does not read, the audit finds the same issues. -/
theorem value_tree_of_alikeBut
    (hscanned : ∀ path ∈ audited fs' config root, fs'.fileAt? path ≠ some names) :
    (tree fs' config root).value = (tree fs config root).value := by
  have hfilter : (audited fs config root).filter (!isTooLong ·) =
      (audited fs' config root).filter (!isTooLong ·) := by
    apply filter_audited_congr
    intro below hshort
    have hlong : isTooLong (along root below) = false := by simpa using hshort
    constructor
    · exact IsTarget.of_alikeBut halike (Or.inl hthere)
    · intro htarget
      have hbelow := isName_of_isTarget htarget
      have hmem := (along_mem_audited hbelow).mpr ⟨htarget, canEnter_of_along hbelow hlong⟩
      exact htarget.of_alikeBut halike.symm (Or.inr ⟨hlong, hscanned _ hmem⟩)
  rw [value_tree, value_tree, flatMap_block_filter fs', flatMap_block_filter fs, hfilter]
  apply List.flatMap_congr
  intro path hpath
  obtain ⟨hpath, hshort⟩ := List.mem_filter.mp hpath
  have hread := readText_of_mem_audited hpath
  rw [if_neg (by simpa using hshort)] at hread
  obtain ⟨other, _, hother, _⟩ := hread
  have hne : other ≠ names := fun hsame => hscanned path hpath (hsame ▸ hother)
  exact (block_of_alikeBut halike.symm hother hne).symm

theorem value_path_of_alikeBut (config : Config) {path : List Char}
    (hpath : fs'.fileAt? path ≠ some names)
    (hscanned : ∀ scanned ∈ audited fs' config path, fs'.fileAt? scanned ≠ some names) :
    (Audit.path fs' config path).map (·.value) = (Audit.path fs config path).map (·.value) := by
  have hbefore : fs.fileAt? path ≠ some names := by
    intro hfile
    exact hpath (FileSystem.fileAt?_of_alikeBut halike (fun _ => hthere) hfile)
  rw [Audit.path, Audit.path, FileSystem.pathExists_eq_of_alikeBut halike hbefore hpath,
    FileSystem.isFile_eq_of_alikeBut halike hbefore hpath]
  split
  · rfl
  · split
    · rename_i hfile
      obtain ⟨other, hother⟩ := FileSystem.isFile_iff.mp hfile
      have hne : other ≠ names := fun hsame => hbefore (hsame ▸ hother)
      rw [Option.map_some, Option.map_some, value_fileOrNone, value_fileOrNone,
        block_of_alikeBut halike hother hne]
    · rw [Option.map_some, Option.map_some, value_tree_of_alikeBut halike hthere hscanned]

end There

end Audit

namespace Run

/-- A file that a run with these choices reads: its configuration, its input, or a file that the
audit of its input turns to. -/
def Reads (fs : FileSystem) (choices : Choices) (path : List Char) (names : List Name) : Prop :=
  fs.fileAt? (configPath choices) = some names ∨ fs.fileAt? path = some names ∨
    ∃ loaded, Config.load fs (configPath choices) = .ok loaded ∧
      ∃ scanned ∈ Audit.audited fs (resolve choices loaded.config) path,
        fs.fileAt? scanned = some names

variable {fs : FileSystem} {choices : Choices} {path : List Char}

/-- The second of two runs that agrees with the first: nothing but the log may be different. -/
structure Repeats (first second : Outcome) : Prop where
  status : second.status = first.status
  output : second.output = first.output
  failure : second.failure = first.failure
  fs : second.fs = first.fs

theorem repeats_refl (outcome : Outcome) : Repeats outcome outcome := ⟨rfl, rfl, rfl, rfl⟩

/-- A report that was written is written over itself. -/
theorem repeats_conclude {target : List Char} {names : List Name} (issues : List Issue)
    (log log' : List Event) (hjson : choices.json = some target)
    (hnames : fs.destination? target = some names) {after : FileSystem}
    (hafter : after = fs.put names (.file (Report.ofIssues issues).fileText.toUTF8)) :
    (conclude fs choices issues log).fs = after ∧
      Repeats (conclude fs choices issues log) (conclude after choices issues log') := by
  have hwritable := FileSystem.writable_of_destination? hnames
  have hthere : after.entryAt? names = some (.file (Report.ofIssues issues).fileText.toUTF8) :=
    hafter ▸ FileSystem.entryAt?_put hwritable _
  have hsave : (Report.ofIssues issues).save fs target = .ok after :=
    FileSystem.write_eq_ok_iff.mpr ⟨names, hnames, hafter⟩
  have hagain : (Report.ofIssues issues).save after target = .ok after := by
    have halike : AlikeBut names fs after := hafter ▸ FileSystem.alikeBut_put hwritable _
    obtain ⟨hcreate, _⟩ := FileSystem.resolve_of_destination? halike hnames hthere
    have hdestination : after.destination? target = some names :=
      FileSystem.destination?_eq_some_iff.mpr ⟨_, hcreate, rfl⟩
    exact FileSystem.write_eq_ok_iff.mpr
      ⟨names, hdestination, (FileSystem.put_of_entryAt? hthere).symm⟩
  rw [conclude, conclude, hjson]
  dsimp only
  rw [hsave, hagain]
  exact ⟨rfl, rfl, rfl, rfl, rfl⟩

theorem fs_conclude (fs : FileSystem) (choices : Choices) (issues : List Issue)
    (log : List Event) :
    (conclude fs choices issues log).fs = fs ∨
      ∃ target names, choices.json = some target ∧ fs.destination? target = some names := by
  rw [conclude]
  split
  · exact Or.inl rfl
  · rename_i target hjson
    split
    · rename_i after hsave
      obtain ⟨names, hnames, _⟩ := FileSystem.write_eq_ok_iff.mp hsave
      exact Or.inr ⟨target, names, hjson, hnames⟩
    · exact Or.inl rfl

theorem audit_eq_conclude {loaded : Config.Loaded} {audited : Logged (List Issue)}
    (hload : Config.load fs (configPath choices) = .ok loaded)
    (haudit : Audit.path fs (resolve choices loaded.config) path = some audited) :
    audit fs path choices = conclude fs choices audited.value (loaded.event :: audited.log) := by
  rw [audit, hload]
  dsimp only
  rw [haudit]

theorem exists_of_failure_eq_none (h : (audit fs path choices).failure = none) :
    ∃ loaded audited, Config.load fs (configPath choices) = .ok loaded ∧
      Audit.path fs (resolve choices loaded.config) path = some audited := by
  rw [audit] at h
  split at h
  · cases h
  · rename_i loaded hload
    split at h
    · cases h
    · rename_i audited haudit
      exact ⟨loaded, audited, hload, haudit⟩

/-- A run that does not read the file of its report repeats, once the file is there. -/
theorem exists_audit_eq_conclude {fs' : FileSystem} {names : List Name}
    (halike : AlikeBut names fs fs')
    (hthere : ∃ content, fs'.entryAt? names = some (.file content))
    (happart : ¬Reads fs' choices path names) {loaded : Config.Loaded}
    {audited : Logged (List Issue)} (hload : Config.load fs (configPath choices) = .ok loaded)
    (haudit : Audit.path fs (resolve choices loaded.config) path = some audited) :
    ∃ log, audit fs' path choices = conclude fs' choices audited.value log := by
  rw [Reads, not_or, not_or] at happart
  obtain ⟨hconfig', hpath', hscanned⟩ := happart
  have hconfig : fs.fileAt? (configPath choices) ≠ some names := by
    intro hfile
    exact hconfig' (FileSystem.fileAt?_of_alikeBut halike (fun _ => hthere) hfile)
  have hload' : Config.load fs' (configPath choices) = .ok loaded := by
    rw [Config.load_of_alikeBut halike hconfig hconfig', hload]
  have hvalue := Audit.value_path_of_alikeBut halike hthere (resolve choices loaded.config)
    hpath' fun scanned hmem hfile => hscanned ⟨loaded, hload', scanned, hmem, hfile⟩
  rw [haudit, Option.map_some, Option.map_eq_some_iff] at hvalue
  obtain ⟨audited', haudit', hsame⟩ := hvalue
  rw [audit_eq_conclude hload' haudit', hsame]
  exact ⟨_, rfl⟩

theorem repeats_audit (hfailure : (audit fs path choices).failure = none)
    (happart : ∀ target names, choices.json = some target →
      (audit fs path choices).fs.fileAt? target = some names →
      ¬Reads (audit fs path choices).fs choices path names) :
    Repeats (audit fs path choices) (audit (audit fs path choices).fs path choices) := by
  obtain ⟨loaded, audited, hload, haudit⟩ := exists_of_failure_eq_none hfailure
  rw [audit_eq_conclude hload haudit] at happart ⊢
  rcases fs_conclude fs choices audited.value (loaded.event :: audited.log)
    with hfs | ⟨target, names, hjson, hnames⟩
  · rw [hfs, audit_eq_conclude hload haudit]
    exact repeats_refl _
  · have hwritable := FileSystem.writable_of_destination? hnames
    have halike := FileSystem.alikeBut_put hwritable (Report.ofIssues audited.value).fileText.toUTF8
    have hthere := FileSystem.entryAt?_put hwritable (Report.ofIssues audited.value).fileText.toUTF8
    obtain ⟨_, hfollow⟩ := FileSystem.resolve_of_destination? halike hnames hthere
    have hfile := FileSystem.fileAt?_eq_some_iff.mpr ⟨_, hfollow⟩
    have hconclude := fun log' => repeats_conclude audited.value (loaded.event :: audited.log) log'
      hjson hnames rfl
    obtain ⟨hfs, _⟩ := hconclude []
    rw [hfs] at happart ⊢
    obtain ⟨log', hsecond⟩ := exists_audit_eq_conclude halike ⟨_, hthere⟩
      (happart target names hjson hfile) hload haudit
    rw [hsecond]
    exact (hconclude log').2

end Run

section OnePage

/-- The directory with the page, after some report was written. -/
def onePageWith (report : ByteArray) : FileSystem :=
  onePage.put ["r.json".toList] (.file report)

theorem not_reads_onePageWith (report : ByteArray) :
    ¬Run.Reads (onePageWith report) savingChoices "p.html".toList ["r.json".toList] := by
  have hconfig : (onePageWith report).fileAt? Config.defaultPath.toList = none := rfl
  have hpage : (onePageWith report).fileAt? "p.html".toList = some ["p.html".toList] := rfl
  have hentry : (onePageWith report).entry .follow "p.html".toList = .ok (.file "<p>".toUTF8) := rfl
  rintro (hreads | hreads | ⟨loaded, _, scanned, hmem, hreads⟩)
  · rw [show Run.configPath savingChoices = Config.defaultPath.toList from rfl, hconfig] at hreads
    cases hreads
  · rw [hpage] at hreads
    exact absurd hreads (by decide)
  · -- A root that is a file is the only file of its tree.
    have hscanned : scanned = "p.html".toList := by
      rw [Audit.audited_eq, Walk.fromRoot_of_ok hentry, Walk.steps] at hmem
      split at hmem
      · cases hmem
      · split at hmem
        · exact List.mem_singleton.mp hmem
        · cases hmem
    rw [hscanned, hpage] at hreads
    exact absurd hreads (by decide)

theorem exists_onePageWith : (run onePage savingArgs).failure = none ∧
    ∃ report, (run onePage savingArgs).fs = onePageWith report := by
  have hload : Config.load onePage (Run.configPath savingChoices) =
      .ok ⟨Config.default, .noConfig Config.defaultPath.toList⟩ := if_pos (by decide +kernel)
  have hpath : onePage.pathExists "p.html".toList = true := by decide +kernel
  have hplace : onePage.destination? "r.json".toList = some ["r.json".toList] := by decide +kernel
  have hends := Run.audit_ends onePage savingChoices "p.html".toList
  rw [hload] at hends
  dsimp only at hends
  rw [if_pos hpath] at hends
  obtain ⟨audited, haudit, hreports⟩ := hends
  refine ⟨hreports.failure, (Report.ofIssues audited.value).fileText.toUTF8, ?_⟩
  change (Run.audit onePage "p.html".toList savingChoices).fs = _
  rw [Run.audit_eq_conclude hload haudit]
  exact (Run.repeats_conclude audited.value _ [] rfl hplace rfl).1

end OnePage

/-- A run that is made again after it made its report prints the same and changes nothing, its report
included, unless it reads what it wrote. -/
theorem run_again (fs : FileSystem) (args : List (List Char)) (path : List Char)
    (choices : Choices) (hparse : CommandLine.parse args = .audit path choices)
    (hfailure : (run fs args).failure = none)
    (happart : ∀ target names, choices.json = some target →
      (run fs args).fs.fileAt? target = some names →
      ¬Run.Reads (run fs args).fs choices path names) :
    let first : Outcome := run fs args
    let second : Outcome := run first.fs args
    second.status = first.status ∧ second.output = first.output ∧ second.failure = none ∧
      second.fs = first.fs := by
  have hrun : ∀ fs, run fs args = Run.audit fs path choices := by
    intro fs
    rw [run, hparse]
    rfl
  simp only [hrun] at hfailure happart ⊢
  have hrepeats := Run.repeats_audit hfailure happart
  exact ⟨hrepeats.status, hrepeats.output, hrepeats.failure.trans hfailure, hrepeats.fs⟩

theorem run_again_onePage :
    (∃ report, (run onePage savingArgs).fs = onePageWith report) ∧
      let first : Outcome := run onePage savingArgs
      let second : Outcome := run first.fs savingArgs
      second.status = first.status ∧ second.output = first.output ∧ second.failure = none ∧
        second.fs = first.fs := by
  obtain ⟨hfailure, report, hfs⟩ := exists_onePageWith
  refine ⟨⟨report, hfs⟩, run_again onePage savingArgs "p.html".toList savingChoices rfl hfailure ?_⟩
  intro target names hjson hfile
  rw [hfs] at hfile ⊢
  rw [← Option.some.inj hjson] at hfile
  have hreport : (onePageWith report).fileAt? "r.json".toList = some ["r.json".toList] := rfl
  rw [hreport, Option.some.injEq] at hfile
  rw [← hfile]
  exact not_reads_onePageWith report

end MarkupAudit
