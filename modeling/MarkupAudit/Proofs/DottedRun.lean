import MarkupAudit.Proofs.AuditedPath
import MarkupAudit.Proofs.Config.Precedence
import MarkupAudit.Proofs.ReplacedFile
import MarkupAudit.Proofs.Rerun

/-!
Runs and the points before extensions. What a run is configured with has no points before its
extensions, so points before those that it is given make no difference to it: not in the command
line (`run_of_dotted`), nor in the file of configuration, except that the file may have other issues
if it is scanned itself (`Run.audit_put`).
-/

namespace MarkupAudit

open CommandLine (Choices Request Dotted Parses)
open FileSystem (Name decodeText textOf)

namespace Run

/-- The files that the audit of a run turns to. -/
def scanned (fs : FileSystem) (path : List Char) (choices : Choices) : List (List Char) :=
  match Config.load fs (configPath choices) with
  | .error _ => []
  | .ok loaded => ((Audit.path fs (resolve choices loaded.config) path).map Audit.scanned).getD []

variable {fs : FileSystem} {path : List Char} {choices choices' : Choices}

theorem scanned_of_redotted (h : CommandLine.Redotted choices choices') (fs : FileSystem)
    (path : List Char) : scanned fs path choices' = scanned fs path choices := by
  have hresolve := resolve_of_redotted h
  have hconfig : configPath choices' = configPath choices := by cases h; rfl
  rw [scanned, scanned, hconfig]
  simp only [hresolve]

theorem scanned_of_load {loaded : Config.Loaded}
    (h : Config.load fs (configPath choices) = .ok loaded) : scanned fs path choices =
      ((Audit.path fs (resolve choices loaded.config) path).map Audit.scanned).getD [] := by
  rw [scanned, h]

theorem scanned_of_error {error : Config.LoadError}
    (h : Config.load fs (configPath choices) = .error error) : scanned fs path choices = [] := by
  rw [scanned, h]

section Put

variable {names : List Name} {old bytes : ByteArray} {loaded loaded' : Config.Loaded}

/-- With other bytes in a file, and the same configuration, the same files are scanned, and the same
is reported if the file has the same issues where it is scanned. -/
theorem audit_put_of_load (h : fs.entryAt? names = some (.file old))
    (hload : Config.load fs (configPath choices) = .ok loaded)
    (hload' : Config.load (fs.put names (.file bytes)) (configPath choices) = .ok loaded')
    (hconfig : loaded'.config = loaded.config) (path : List Char) :
    scanned (fs.put names (.file bytes)) path choices = scanned fs path choices ∧
    ((∀ file ∈ scanned fs path choices, fs.fileAt? file = some names →
        Audit.issuesOf file bytes = Audit.issuesOf file old) →
      SameReport (audit fs path choices) (audit (fs.put names (.file bytes)) path choices)) := by
  rw [scanned_of_load hload, scanned_of_load hload', hconfig]
  cases haudit : Audit.path fs (resolve choices loaded.config) path with
  | none =>
    have haudit' : Audit.path (fs.put names (.file bytes)) (resolve choices loaded.config) path =
        none := by
      rw [Audit.path_eq_none_iff, FileSystem.pathExists_put h]
      exact Audit.path_eq_none_iff.mp haudit
    rw [haudit']
    refine ⟨rfl, fun _ => ?_⟩
    rw [audit, audit, hload, hload']
    dsimp only
    rw [hconfig, haudit, haudit']
    exact sameReport_of_unwritten rfl rfl rfl rfl
  | some logged =>
    obtain ⟨logged', haudit', hscanned, hvalue⟩ := Audit.path_put h bytes haudit
    rw [haudit', Option.map_some, Option.map_some, Option.getD_some, Option.getD_some]
    refine ⟨hscanned, fun hsame => ?_⟩
    rw [audit_eq_conclude hload haudit, audit_eq_conclude hload' (hconfig ▸ haudit'), hvalue hsame]
    exact sameReport_conclude (FileSystem.destination?_put h bytes) choices logged.value _ _

/-- Points before the extensions in the file of configuration. -/
theorem audit_put {text text' : List Char} (hfile : fs.fileAt? (configPath choices) = some names)
    (hread : fs.readText (configPath choices) = .ok text) (hbytes : decodeText bytes = some text')
    (h : Config.RedottedResult (Config.decode text) (Config.decode text')) (path : List Char) :
    scanned (fs.put names (.file bytes)) path choices = scanned fs path choices ∧
    ((∀ file ∈ scanned fs path choices, fs.fileAt? file = some names →
        Scan.content (String.ofList file) text' = Scan.content (String.ofList file) text) →
      SameReport (audit fs path choices) (audit (fs.put names (.file bytes)) path choices)) := by
  obtain ⟨old, hold⟩ := FileSystem.exists_entryAt?_of_fileAt? hfile
  have htext := FileSystem.decodeText_of_readText hold hfile hread
  have hread' := FileSystem.readText_put hold bytes hfile
  rw [textOf, hbytes] at hread'
  have hload := Config.load_of_redottedResult hread hread' h
  cases hloaded : Config.load fs (configPath choices) with
  | error error =>
    rw [hloaded] at hload
    obtain ⟨error', hloaded'⟩ := hload
    rw [scanned_of_error hloaded, scanned_of_error hloaded', audit, audit, hloaded, hloaded']
    exact ⟨rfl, fun _ => sameReport_of_unwritten rfl rfl rfl rfl⟩
  | ok loaded =>
    rw [hloaded] at hload
    obtain ⟨loaded', hloaded', hconfig⟩ := hload
    obtain ⟨hscanned, hreport⟩ := audit_put_of_load hold hloaded hloaded' hconfig path
    refine ⟨hscanned, fun hsame => hreport fun file hmem hnames => ?_⟩
    rw [Audit.issuesOf_of_decodeText hbytes, Audit.issuesOf_of_decodeText htext]
    exact hsame file hmem hnames

end Put

end Run

/-- The files that a run scans. -/
def scanned (fs : FileSystem) (args : List (List Char)) : List (List Char) :=
  match CommandLine.parse args with
  | .audit path choices => Run.scanned fs path choices
  | _ => []

theorem run_of_dotted {args args' : List (List Char)} (h : Dotted args args')
    (hparses : Parses args) (fs : FileSystem) :
    scanned fs args' = scanned fs args ∧ run fs args' = run fs args := by
  have hrequest := CommandLine.sameRequest_parse h hparses
  rw [scanned, scanned, run, run]
  generalize CommandLine.parse args = first, CommandLine.parse args' = second at hrequest
  cases hrequest with
  | same request => exact ⟨rfl, rfl⟩
  | audit path h => exact ⟨Run.scanned_of_redotted h fs path, Run.audit_of_redotted h fs path⟩

/-- What a run is configured with, and what it does not depend on. Each list is what is given in the
command line, or else what the file has, or else the default, without points before the extensions.
So points before the extensions make no difference: neither in the command line, nor in the file,
however it is written, unless the file is scanned and other issues are found in it. -/
theorem run_ignores_dots (fs : FileSystem) (args : List (List Char)) :
    (∀ path choices loaded, CommandLine.parse args = .audit path choices →
      Config.load fs (Run.configPath choices) = .ok loaded →
      Run.Resolved fs args (Run.configPath choices) (Run.resolve choices loaded.config)) ∧
    (∀ args', Dotted args args' → Parses args →
      scanned fs args' = scanned fs args ∧ run fs args' = run fs args) ∧
    (∀ path choices names text text' bytes, CommandLine.parse args = .audit path choices →
      fs.fileAt? (Run.configPath choices) = some names →
      fs.readText (Run.configPath choices) = .ok text → decodeText bytes = some text' →
      Config.RedottedResult (Config.decode text) (Config.decode text') →
      let fs' := fs.put names (.file bytes)
      scanned fs' args = scanned fs args ∧
      ((∀ file ∈ scanned fs args, fs.fileAt? file = some names →
          Scan.content (String.ofList file) text' = Scan.content (String.ofList file) text) →
        Run.SameReport (run fs args) (run fs' args))) ∧
    ∀ (config config' : Config) (first first' second : List Char), Config.Redotted config config' →
      Toml.SpelledEntry "extensions".toList config.extensions first →
      Toml.SpelledEntry "extensions".toList config'.extensions first' →
      Toml.SpelledEntry "exclude".toList config.exclude second →
      Config.RedottedResult (Config.decode (first ++ second)) (Config.decode (first' ++ second)) := by
  refine ⟨fun path choices loaded hparse hload => Run.resolved_of_load hparse hload,
    fun args' h hparses => run_of_dotted h hparses fs, ?_,
    fun _ _ _ _ _ h => Config.redottedResult_of_spelled h⟩
  intro path choices names text text' bytes hparse hfile hread hbytes h
  simp only [scanned, run, hparse]
  exact Run.audit_put hfile hread hbytes h path

section Page

/-- An entry that is written as `key = [..]`. -/
def writtenEntry (key : String) (texts : List String) : List Char :=
  key.toList ++ ' ' :: '=' :: ' ' :: (Toml.spellArray texts ++ ['\n'])

/-- A document with these extensions, that leaves no names out. -/
def writtenDocument (extensions : List String) : String :=
  String.ofList (writtenEntry "extensions" extensions ++ writtenEntry "exclude" [])

/-- A directory with a page, and a file of configuration beside it. -/
def configuredPage (extensions : List String) : FileSystem where
  entries := [("c.toml".toList, .file (writtenDocument extensions).toUTF8),
    ("d".toList, .directory [("a.ts".toList, .file "<p>".toUTF8)])]
  home := []
  sound := rfl

def pageArgs : List (List Char) := ["d".toList, "--config".toList, "c.toml".toList]

def pageChoices : Choices :=
  { Choices.none with path := some "d".toList, config := some "c.toml".toList }

/-- The page is asked for in the command line, after some points. -/
def chosenArgs (points : List Char) : List (List Char) :=
  ["d".toList, "--ext".toList, points ++ "ts".toList]

theorem spelled_writtenEntry (key : String) (texts : List String) :
    Toml.SpelledEntry key.toList texts (writtenEntry key texts) :=
  .intro (Toml.spelledArray_spellArray texts)

theorem decode_writtenDocument (extensions : List String) :
    Config.decode (writtenDocument extensions).toList = .ok ⟨extensions, []⟩ := by
  rw [writtenDocument, String.toList_ofList]
  exact Config.decode_of_spelled (spelled_writtenEntry _ _) (spelled_writtenEntry _ _)

theorem readText_configuredPage (extensions : List String) :
    (configuredPage extensions).readText "c.toml".toList =
      .ok (writtenDocument extensions).toList := by
  have hfile : (configuredPage extensions).fileAt? "c.toml".toList = some ["c.toml".toList] := rfl
  rw [FileSystem.readText_of_fileAt? hfile rfl, textOf, FileSystem.decodeText_toUTF8]

theorem load_configuredPage (extensions : List String) :
    Config.load (configuredPage extensions) "c.toml".toList =
      .ok ⟨Config.normalized ⟨extensions, []⟩, .configLoaded ⟨extensions, []⟩⟩ := by
  rw [Config.load_of_readText (readText_configuredPage extensions), decode_writtenDocument]

theorem resolve_pageChoices :
    Run.resolve pageChoices (Config.normalized ⟨["ts"], []⟩) = ⟨["ts"], []⟩ := by
  decide +kernel

/-- The page is the only file of its directory. -/
theorem audited_configuredPage (extensions : List String) :
    Audit.audited (configuredPage extensions) ⟨["ts"], []⟩ "d".toList = ["d/a.ts".toList] := by
  have hroot : (configuredPage extensions).entry .follow "d".toList =
      .ok (.directory [("a.ts".toList, .file "<p>".toUTF8)]) := rfl
  have hbelow : Walk.below (configuredPage extensions) ⟨["ts"], []⟩ "d".toList
      [("a.ts".toList, .file "<p>".toUTF8)] = [("a.ts".toList, [.file "d/a.ts".toList])] := rfl
  rw [Audit.audited_eq, Walk.fromRoot_of_ok hroot, Walk.steps, hbelow, List.mergeSort_singleton]
  decide +kernel

theorem scanned_configuredPage :
    scanned (configuredPage ["ts"]) pageArgs = ["d/a.ts".toList] := by
  have hroot : (configuredPage ["ts"]).entry .follow "d".toList =
      .ok (.directory [("a.ts".toList, .file "<p>".toUTF8)]) := rfl
  change Run.scanned (configuredPage ["ts"]) "d".toList pageChoices = _
  rw [Run.scanned_of_load (load_configuredPage ["ts"])]
  dsimp only
  rw [resolve_pageChoices, Audit.path_of_directory hroot]
  exact audited_configuredPage ["ts"]

/-- With the page, and points before its extension. -/
theorem run_ignores_dots_page :
    Run.Resolved (configuredPage ["ts"]) pageArgs "c.toml".toList ⟨["ts"], []⟩ ∧
    run (configuredPage ["ts"]) (chosenArgs ['.', '.']) =
      run (configuredPage ["ts"]) (chosenArgs []) ∧
    scanned (configuredPage ["ts"]) pageArgs = ["d/a.ts".toList] ∧
    Run.SameReport (run (configuredPage ["ts"]) pageArgs)
      (run (configuredPage ["..ts"]) pageArgs) := by
  have hparse : CommandLine.parse pageArgs = .audit "d".toList pageChoices := by decide +kernel
  have hscanned := scanned_configuredPage
  have hpage : (configuredPage ["ts"]).fileAt? "d/a.ts".toList =
      some ["d".toList, "a.ts".toList] := rfl
  have hnew : (configuredPage ["ts"]).put ["c.toml".toList]
      (.file (writtenDocument ["..ts"]).toUTF8) = configuredPage ["..ts"] := rfl
  obtain ⟨hresolved, _, hfile, hwritten⟩ := run_ignores_dots (configuredPage ["ts"]) pageArgs
  obtain ⟨_, hdotted, _⟩ := run_ignores_dots (configuredPage ["ts"]) (chosenArgs [])
  have hresult := hwritten ⟨["ts"], []⟩ ⟨["..ts"], []⟩ _ _ _ ⟨.cons ⟨2, by decide⟩ .nil, rfl⟩
    (spelled_writtenEntry "extensions" ["ts"]) (spelled_writtenEntry "extensions" ["..ts"])
    (spelled_writtenEntry "exclude" [])
  obtain ⟨_, hsame⟩ := hfile _ _ ["c.toml".toList] _ _ (writtenDocument ["..ts"]).toUTF8 hparse rfl
    (readText_configuredPage ["ts"]) (FileSystem.decodeText_toUTF8 _)
    (by rwa [writtenDocument, writtenDocument, String.toList_ofList, String.toList_ofList])
  refine ⟨?_, ?_, hscanned, ?_⟩
  · have hresolved := hresolved _ _ _ hparse (load_configuredPage ["ts"])
    dsimp only at hresolved
    rwa [resolve_pageChoices] at hresolved
  · have hargs : Dotted (chosenArgs []) (chosenArgs ['.', '.']) :=
      .same (by decide) (.separate ⟨2, rfl⟩ .nil)
    have hparses : Parses (chosenArgs []) := by
      intro herror
      cases herror
    exact (hdotted _ hargs hparses).2
  · rw [hnew] at hsame
    apply hsame
    intro file hmem hnames
    rw [hscanned, List.mem_singleton] at hmem
    rw [hmem, hpage] at hnames
    exact absurd hnames (by decide)

end Page

section ScannedFile

/-- A configuration that is markup as well. The points come where the markup needs a blank. -/
def markupDocument (points : String) : String :=
  "extensions = [\"<div\", \"\"\"\n" ++ points ++ "onClick=\"\"\"]\n"

def markupArgs : List (List Char) := ["c.toml".toList, "--config".toList, "c.toml".toList]

def markupChoices : Choices :=
  { Choices.none with path := some "c.toml".toList, config := some "c.toml".toList }

theorem parse_markupArgs :
    CommandLine.parse markupArgs = .audit "c.toml".toList markupChoices := by
  decide +kernel

theorem status_markup_eq_zero_iff {document : String} {config : Config}
    (h : Config.decode document.toList = .ok config) :
    (run (Config.configured document.toUTF8) markupArgs).status = 0 ↔
      ∀ issue ∈ Scan.content "c.toml" document.toList, issue.severity ≠ .critical := by
  have hentry : (Config.configured document.toUTF8).entry .follow "c.toml".toList =
      .ok (.file document.toUTF8) := rfl
  have hread := Config.readText_configured document
  have hload := Config.load_of_readText hread
  rw [h] at hload
  rw [run, parse_markupArgs]
  change (Run.audit (Config.configured document.toUTF8) "c.toml".toList markupChoices).status = 0 ↔ _
  rw [Run.audit_eq_conclude hload (Audit.path_of_file hentry), Run.status_conclude_eq_zero_iff,
    Audit.value_fileOrNone, Audit.block, hread, String.ofList_toList]
  refine and_iff_left ?_
  intro target hjson
  cases hjson

/-- With a point before an extension the run succeeds: the file is scanned, and its issue is gone. -/
theorem dots_in_scanned_file :
    CommandLine.parse markupArgs = .audit "c.toml".toList markupChoices ∧
    Run.configPath markupChoices = "c.toml".toList ∧
    (Config.configured (markupDocument "").toUTF8).put ["c.toml".toList]
      (.file (markupDocument ".").toUTF8) = Config.configured (markupDocument ".").toUTF8 ∧
    Config.RedottedResult (Config.decode (markupDocument "").toList)
      (Config.decode (markupDocument ".").toList) ∧
    (run (Config.configured (markupDocument "").toUTF8) markupArgs).status ≠ 0 ∧
    (run (Config.configured (markupDocument ".").toUTF8) markupArgs).status = 0 := by
  have hplain : Config.decode (markupDocument "").toList =
      .ok ⟨["<div", "onClick="], ["node_modules"]⟩ := by decide +kernel
  have hdotted : Config.decode (markupDocument ".").toList =
      .ok ⟨["<div", ".onClick="], ["node_modules"]⟩ := by decide +kernel
  have hcritical : (Scan.content "c.toml" (markupDocument "").toList).any
      (·.severity = .critical) = true := by decide +kernel
  have hnone : (Scan.content "c.toml" (markupDocument ".").toList).any
      (·.severity = .critical) = false := by decide +kernel
  refine ⟨parse_markupArgs, rfl, rfl, ?_, ?_, ?_⟩
  · rw [hplain, hdotted]
    exact .ok ⟨.cons ⟨0, rfl⟩ (.cons ⟨1, rfl⟩ .nil), rfl⟩
  · rw [ne_eq, status_markup_eq_zero_iff hplain]
    intro hall
    obtain ⟨issue, hissue, hsevere⟩ := List.any_eq_true.mp hcritical
    exact hall issue hissue (of_decide_eq_true hsevere)
  · rw [status_markup_eq_zero_iff hdotted]
    intro issue hissue hsevere
    exact List.any_eq_false.mp hnone issue hissue (decide_eq_true hsevere)

end ScannedFile

end MarkupAudit
