import MarkupAudit.Proofs.FileBlocks
import MarkupAudit.Proofs.RunOutcome

/-!
An audit of a path, by what the path leads to. A path that is followed leads nowhere, to a file or to
a directory. Audited as a tree, a file has the issues of the file if the configuration asks for it;
audited as a path, it has them in any case, and a directory has those of its tree.
-/

namespace MarkupAudit

open FileSystem (Cause Entry decodeText)

namespace FileSystem

variable {fs : FileSystem} {path : List Char}

theorem Walks.ne_link {links : Nat} {trail : Trail} {parts : List Name} {place : Place}
    (h : Walks fs links trail parts place) (names : List Name) (target : List Char) :
    place ≠ .existing names (.link target) := by
  induction h with
  | here => simp
  | skip _ _ ih => exact ih
  | up _ ih => exact ih
  | vacant => simp
  | file => simp
  | directory _ _ _ _ ih => exact ih
  | link _ _ _ _ ih => exact ih

/-- A path that is followed does not end at a link. -/
theorem entry_follow_ne_link (fs : FileSystem) (path target : List Char) :
    fs.entry .follow path ≠ .ok (.link target) := by
  intro h
  obtain ⟨names, hresolve⟩ := entry_eq_ok_iff.mp h
  obtain ⟨_, _, _, trail, _, hwalk⟩ := resolve_eq_ok_iff.mp hresolve
  exact (walks_of_walk (by decide) hwalk).ne_link names target rfl

theorem exists_error_of_isTooLong (fs : FileSystem) (h : isTooLong path = true) :
    ∃ cause, fs.entry .follow path = .error cause := by
  cases hentry : fs.entry .follow path with
  | error cause => exact ⟨cause, rfl⟩
  | ok entry =>
    obtain ⟨names, hresolve⟩ := entry_eq_ok_iff.mp hentry
    obtain ⟨_, _, hshort, _⟩ := resolve_eq_ok_iff.mp hresolve
    rw [h] at hshort
    cases hshort

theorem pathExists_eq_false_iff :
    fs.pathExists path = false ↔ ∃ cause, fs.entry .follow path = .error cause := by
  rw [pathExists]
  cases fs.entry .follow path <;> simp [Except.isOk, Except.toBool]

theorem isFile_of_ok {entry : Entry} (h : fs.entry .follow path = .ok entry) :
    fs.isFile path = entry.isFile := by
  rw [isFile, h]

theorem isFile_of_error {cause : Cause} (h : fs.entry .follow path = .error cause) :
    fs.isFile path = false := by
  rw [isFile, h]

/-- A file is text when its bytes are those of a text. -/
theorem decodeText_eq_some_iff {content : ByteArray} {text : List Char} :
    decodeText content = some text ↔ content = text.utf8Encode := by
  constructor
  · intro h
    obtain ⟨decoded, hdecoded, rfl⟩ := Option.map_eq_some_iff.mp h
    rw [String.fromUTF8?] at hdecoded
    split at hdecoded
    · rw [String.utf8Encode_toList, ← Option.some.inj hdecoded]
      rfl
    · cases hdecoded
  · rintro rfl
    have hdecoded := decodeText_toUTF8 (String.ofList text)
    rwa [String.toList_ofList] at hdecoded

theorem decodeText_eq_none_iff {content : ByteArray} :
    decodeText content = none ↔ ¬content.IsValidUTF8 := by
  rw [decodeText, Option.map_eq_none_iff, String.fromUTF8?]
  split
  · rename_i hvalid
    simp [hvalid]
  · rename_i hvalid
    simp [hvalid]

end FileSystem

namespace Audit

variable {fs : FileSystem} {config : Config} {path : List Char}

section Tree

theorem value_tree_of_excludesPath (h : config.excludesPath path = true) :
    (tree fs config path).value = [] := by
  rw [tree, if_pos h]

theorem value_tree_eq_value_steps (h : config.excludesPath path = false) :
    (tree fs config path).value = (steps fs (Walk.fromRoot fs config path)).value := by
  rw [tree, h]
  rfl

theorem value_tree_of_error {cause : Cause} (h : fs.entry .follow path = .error cause) :
    (tree fs config path).value = [] := by
  by_cases hroot : config.excludesPath path = true
  · exact value_tree_of_excludesPath hroot
  · rw [Bool.not_eq_true] at hroot
    rw [value_tree_eq_value_steps hroot, Walk.fromRoot_of_error h]
    rfl

theorem value_tree_of_file {content : ByteArray} (h : fs.entry .follow path = .ok (.file content)) :
    (tree fs config path).value =
      if config.matchesExtension path && !config.excludesPath path then block fs path else [] := by
  by_cases hroot : config.excludesPath path = true
  · rw [value_tree_of_excludesPath hroot, hroot, Bool.not_true, Bool.and_false, if_neg (by simp)]
  · rw [Bool.not_eq_true] at hroot
    rw [value_tree_eq_value_steps hroot, Walk.fromRoot_of_ok h, Walk.steps, value_steps, hroot,
      Bool.not_false, Bool.and_true]
    split
    · exact List.flatMap_singleton ..
    · rfl

end Tree

section File

theorem block_eq_getD (fs : FileSystem) (path : List Char) :
    block fs path = (file fs path).toOption.getD [] := by
  rw [block, file]
  cases fs.readText path <;> simp only [Except.map, Except.toOption, Option.getD]

theorem file_of_text {text : List Char}
    (h : fs.entry .follow path = .ok (.file text.utf8Encode)) :
    file fs path = .ok (Scan.content (String.ofList path) text) := by
  have hread : fs.readText path = .ok text := by
    rw [FileSystem.readText, h]
    dsimp only
    rw [FileSystem.decodeText_eq_some_iff.mpr rfl]
  rw [file, hread]
  rfl

/-- Only a file that is text can be scanned. -/
theorem exists_file_eq_error_iff : (∃ cause, file fs path = .error cause) ↔
    ∀ content, fs.entry .follow path = .ok (.file content) → ¬content.IsValidUTF8 := by
  constructor
  · intro h content hcontent hvalid
    obtain ⟨cause, hcause⟩ := h
    obtain ⟨text, rfl⟩ := hvalid
    rw [file_of_text hcontent] at hcause
    cases hcause
  · intro h
    have hread : ∃ cause, fs.readText path = .error cause := by
      rw [FileSystem.readText]
      split
      · rename_i cause _
        exact ⟨cause, rfl⟩
      · rename_i content hcontent
        rw [FileSystem.decodeText_eq_none_iff.mpr (h content hcontent)]
        exact ⟨.notText, rfl⟩
      · exact ⟨.isDirectory, rfl⟩
    obtain ⟨cause, hcause⟩ := hread
    refine ⟨cause, ?_⟩
    rw [file, hcause]
    rfl

theorem fileOrNone_of_error {cause : Cause} (h : file fs path = .error cause) :
    fileOrNone fs path = ⟨[], [.fileFailed path cause]⟩ := by
  rw [fileOrNone, h]

end File

section Path

theorem path_of_file {content : ByteArray} (h : fs.entry .follow path = .ok (.file content)) :
    Audit.path fs config path = some (fileOrNone fs path) := by
  have hexists : fs.pathExists path = true := by
    rw [FileSystem.pathExists, h]
    rfl
  have hfile : fs.isFile path = true := FileSystem.isFile_of_ok h
  rw [Audit.path, hexists, hfile]
  rfl

theorem path_of_directory {entries : List (FileSystem.Name × Entry)}
    (h : fs.entry .follow path = .ok (.directory entries)) :
    Audit.path fs config path = some (tree fs config path) := by
  have hexists : fs.pathExists path = true := by
    rw [FileSystem.pathExists, h]
    rfl
  have hfile : fs.isFile path = false := FileSystem.isFile_of_ok h
  rw [Audit.path, hexists, hfile]
  rfl

/-- A run whose configuration is loaded tells a path that leads nowhere, and only such a one. -/
theorem failure_audit_iff {choices : CommandLine.Choices} {loaded : Config.Loaded}
    (hconfig : Config.load fs (Run.configPath choices) = .ok loaded) :
    (Run.audit fs path choices).failure = some (.noInput path) ↔
      ∃ cause, fs.entry .follow path = .error cause := by
  have hnone : Audit.path fs (Run.resolve choices loaded.config) path = none ↔
      fs.pathExists path = false := path_eq_none_iff
  rw [← FileSystem.pathExists_eq_false_iff, ← hnone, Run.audit, hconfig]
  dsimp only
  cases Audit.path fs (Run.resolve choices loaded.config) path with
  | none => simp
  | some audited =>
    have hsuccess := (Run.reports_conclude fs choices audited.value
      (loaded.event :: audited.log)).failure
    simp [hsuccess]

end Path

section Assorted

/-- A directory with all kinds of entries: files that are text and not, links to a file, to a
directory and to nothing, and directories. -/
def assorted : FileSystem where
  entries := [("sub".toList, .directory [("d.ts".toList, .file "<html>".toUTF8)]),
    ("a.ts".toList, .file "<html>".toUTF8), ("b.ts".toList, .link "a.ts".toList),
    ("bad.ts".toList, .file ⟨#[0xFF]⟩), ("gone.ts".toList, .link "nowhere".toList),
    ("left".toList, .directory [("e.ts".toList, .file "<html>".toUTF8)]),
    ("up".toList, .link "sub".toList)]
  home := []
  sound := by decide

end Assorted

/-- What an audit of a path gives, by what the path leads to. It fails just when the path leads
nowhere, which is what a run then tells of it. A file has the issues of its scan, and none when that
fails, whatever the configuration; as a tree it has them if it has one of the extensions and no
component that is left out. A directory has the issues of its tree. The scan of a file fails just when
there is no file that is text. -/
theorem path_file_tree_agree (fs : FileSystem) (config : Config) (path : List Char) :
    (Audit.path fs config path = none ↔ ∃ cause, fs.entry .follow path = .error cause) ∧
    (∀ choices loaded, Config.load fs (Run.configPath choices) = .ok loaded →
      ((Run.audit fs path choices).failure = some (.noInput path) ↔
        ∃ cause, fs.entry .follow path = .error cause)) ∧
    (∀ cause, fs.entry .follow path = .error cause → (tree fs config path).value = []) ∧
    (∀ content, fs.entry .follow path = .ok (.file content) →
      (Audit.path fs config path).map (·.value) = some ((file fs path).toOption.getD []) ∧
      (tree fs config path).value =
        if config.matchesExtension path && !config.excludesPath path then
          (file fs path).toOption.getD []
        else []) ∧
    (∀ entries, fs.entry .follow path = .ok (.directory entries) →
      Audit.path fs config path = some (tree fs config path)) ∧
    (∀ target, fs.entry .follow path ≠ .ok (.link target)) ∧
    ((∃ cause, file fs path = .error cause) ↔
      ∀ content, fs.entry .follow path = .ok (.file content) → ¬content.IsValidUTF8) ∧
    (∀ text : List Char, fs.entry .follow path = .ok (.file text.utf8Encode) →
      file fs path = .ok (Scan.content (String.ofList path) text)) ∧
    ∀ cause, file fs path = .error cause →
      fileOrNone fs path = ⟨[], [.fileFailed path cause]⟩ := by
  refine ⟨path_eq_none_iff.trans FileSystem.pathExists_eq_false_iff,
    fun _ _ => failure_audit_iff, fun _ => value_tree_of_error, ?_, fun _ => path_of_directory,
    FileSystem.entry_follow_ne_link fs path, exists_file_eq_error_iff, fun _ => file_of_text,
    fun _ => fileOrNone_of_error⟩
  intro content hcontent
  rw [path_of_file hcontent, value_tree_of_file hcontent, ← block_eq_getD, Option.map_some,
    value_fileOrNone]
  exact ⟨rfl, rfl⟩

theorem path_file_tree_agree_assorted :
    Audit.path assorted ⟨["ts"], []⟩ "gone.ts".toList = none ∧
    (Audit.path assorted ⟨[], []⟩ "b.ts".toList).map (·.value) =
      some (Scan.content "b.ts" "<html>".toList) ∧
    (tree assorted ⟨[], []⟩ "b.ts".toList).value = [] ∧
    (tree assorted ⟨["ts"], []⟩ "b.ts".toList).value = Scan.content "b.ts" "<html>".toList ∧
    Audit.path assorted ⟨["ts"], []⟩ "up".toList = some (tree assorted ⟨["ts"], []⟩ "up".toList) ∧
    fileOrNone assorted "bad.ts".toList = ⟨[], [.fileFailed "bad.ts".toList .notText]⟩ := by
  have hgone : assorted.entry .follow "gone.ts".toList = .error .notFound := rfl
  have hlinked : assorted.entry .follow "b.ts".toList =
    .ok (.file "<html>".toList.utf8Encode) := rfl
  have hdirectory : assorted.entry .follow "up".toList =
    .ok (.directory [("d.ts".toList, .file "<html>".toUTF8)]) := rfl
  have hbad : file assorted "bad.ts".toList = .error .notText := by
    have hread : assorted.readText "bad.ts".toList = .error .notText := by decide +kernel
    rw [file, hread]
    rfl
  have hnamed : Config.matchesExtension ⟨["ts"], []⟩ "b.ts".toList = true := by decide
  have hunnamed : Config.matchesExtension ⟨[], []⟩ "b.ts".toList = false := by decide
  have hkept : Config.excludesPath ⟨["ts"], []⟩ "b.ts".toList = false := by decide
  obtain ⟨hmissing, _⟩ := path_file_tree_agree assorted ⟨["ts"], []⟩ "gone.ts".toList
  obtain ⟨_, _, _, hany, _⟩ := path_file_tree_agree assorted ⟨[], []⟩ "b.ts".toList
  obtain ⟨_, _, _, hts, _, _, _, htext, _⟩ := path_file_tree_agree assorted ⟨["ts"], []⟩ "b.ts".toList
  obtain ⟨_, _, _, _, hin, _⟩ := path_file_tree_agree assorted ⟨["ts"], []⟩ "up".toList
  obtain ⟨_, _, _, _, _, _, _, _, herror⟩ :=
    path_file_tree_agree assorted ⟨["ts"], []⟩ "bad.ts".toList
  have hissues := htext _ hlinked
  obtain ⟨hpath, htree⟩ := hany _ hlinked
  obtain ⟨_, htree'⟩ := hts _ hlinked
  rw [hissues, Except.toOption, Option.getD_some] at hpath htree'
  rw [hunnamed, Bool.false_and, if_neg Bool.false_ne_true] at htree
  rw [hnamed, hkept, Bool.not_false, Bool.and_true, if_pos rfl] at htree'
  exact ⟨hmissing.mpr ⟨_, hgone⟩, hpath, htree, htree', hin _ hdirectory, herror _ hbad⟩

end Audit

end MarkupAudit
