import MarkupAudit.Proofs.FileSystem.Write
import MarkupAudit.Proofs.Report.Groups
import MarkupAudit.Run

/-!
What comes of a run. It stops before anything is printed or written (`Stops`), or it prints a report
and writes it where it is asked to (`Reports`); the file that is written is all that a run changes.
-/

namespace MarkupAudit

open CommandLine (Choices Request)
open FileSystem (Name Entry)

namespace Report

variable (issues : List Issue)

theorem exitStatus_eq_zero_iff :
    (ofIssues issues).exitStatus = 0 ↔ ∀ issue ∈ issues, issue.severity ≠ .critical := by
  have hverdict := verdict_eq_fail_iff issues
  rw [exitStatus]
  cases h : (ofIssues issues).summary.verdict with
  | fail =>
    obtain ⟨issue, hissue, hcritical⟩ := hverdict.mp h
    exact iff_of_false (by decide) fun hall => hall issue hissue hcritical
  | passWithWarnings =>
    refine iff_of_true rfl ?_
    intro issue hissue hcritical
    rw [hverdict.mpr ⟨issue, hissue, hcritical⟩] at h
    cases h

theorem exitStatus_le : (ofIssues issues).exitStatus ≤ 1 := by
  rw [exitStatus]
  cases (ofIssues issues).summary.verdict <;> decide

end Report

namespace Audit

variable {fs : FileSystem} {config : Config} {path : List Char}

theorem path_eq_none_iff : Audit.path fs config path = none ↔ fs.pathExists path = false := by
  rw [Audit.path]
  cases fs.pathExists path with
  | false => simp
  | true =>
    rw [if_neg (by decide)]
    split <;> simp

theorem pathExists_of_path {audited : Logged (List Issue)}
    (h : Audit.path fs config path = some audited) : fs.pathExists path = true := by
  by_contra hmissing
  rw [Bool.not_eq_true, ← path_eq_none_iff, h] at hmissing
  cases hmissing

end Audit

namespace Run

/-- The line above the report that says where it was saved. -/
def savedLine : Option (List Char) → String
  | none => ""
  | some target => "Report saved to " ++ String.ofList target ++ "\n"

theorem savedLine_none_append (text : String) : savedLine none ++ text = text :=
  String.empty_append

/-- A run that ends with a failure before it has done anything. -/
structure Stops (fs : FileSystem) (failure : Failure) (outcome : Outcome) : Prop where
  output : outcome.output = ""
  failure : outcome.failure = some failure
  fs : outcome.fs = fs

/-- A run that prints a report, and writes it if that is chosen and can be done. -/
structure Reports (fs : FileSystem) (choices : Choices) (report : Report) (outcome : Outcome) :
    Prop where
  failure : outcome.failure = none
  output : outcome.output = savedLine outcome.written ++ Report.Console.render report
  written : ∀ target, outcome.written = some target ↔
    choices.json = some target ∧ ∃ after, report.save fs target = .ok after
  text : ∀ target, outcome.written = some target →
    outcome.fs.readText target = .ok (report.structured ++ "\n").toList
  unwritten : outcome.written = none → outcome.fs = fs

/-- What it takes for a run to succeed. -/
def Succeeds (fs : FileSystem) : Request → Prop
  | .help => True
  | .version => True
  | .misused => False
  | .listRules => True
  | .audit path choices => ∃ loaded audited, Config.load fs (configPath choices) = .ok loaded ∧
      fs.pathExists path = true ∧
      Audit.path fs (resolve choices loaded.config) path = some audited ∧
      (∀ issue ∈ audited.value, issue.severity ≠ .critical) ∧
      ∀ target, choices.json = some target →
        ∃ after, (Report.ofIssues audited.value).save fs target = .ok after

variable (fs : FileSystem) (choices : Choices)

section Conclude

variable (issues : List Issue) (log : List Event)

theorem reports_conclude :
    Reports fs choices (Report.ofIssues issues) (conclude fs choices issues log) := by
  rw [conclude]
  split
  · rename_i hjson
    refine ⟨rfl, ?_, by simp [hjson], by simp, fun _ => rfl⟩
    dsimp only
    rw [savedLine_none_append]
  · rename_i target hjson
    split
    · rename_i after hsave
      refine ⟨rfl, rfl, ?_, ?_, by simp⟩
      · intro other
        simp only [hjson, Option.some.injEq]
        constructor
        · rintro rfl
          exact ⟨rfl, after, hsave⟩
        · exact And.left
      · intro other hother
        cases hother
        exact FileSystem.readText_of_write hsave
    · rename_i cause hsave
      refine ⟨rfl, ?_, ?_, by simp, fun _ => rfl⟩
      · dsimp only
        rw [savedLine_none_append]
      intro other
      simp only [hjson, Option.some.injEq, reduceCtorEq, false_iff, not_and, not_exists]
      rintro rfl after hafter
      rw [hsave] at hafter
      cases hafter

theorem status_conclude_le : (conclude fs choices issues log).status ≤ 1 := by
  rw [conclude]
  split
  · exact Report.exitStatus_le issues
  · split
    · exact Report.exitStatus_le issues
    · exact Nat.le_refl 1

theorem status_conclude_eq_zero_iff : (conclude fs choices issues log).status = 0 ↔
    (∀ issue ∈ issues, issue.severity ≠ .critical) ∧
      ∀ target, choices.json = some target →
        ∃ after, (Report.ofIssues issues).save fs target = .ok after := by
  rw [conclude, ← Report.exitStatus_eq_zero_iff]
  split
  · rename_i hjson
    simp [hjson]
  · rename_i target hjson
    split
    · rename_i after hsave
      simp [hjson, hsave]
    · rename_i cause hsave
      simp [hjson, hsave]

/-- Only where the report goes there is a change. -/
theorem alone_entryAt?_conclude {names : List Name}
    (h : ∀ target, choices.json = some target → fs.destination? target ≠ some names) :
    ((conclude fs choices issues log).fs.entryAt? names).map Entry.alone =
      (fs.entryAt? names).map Entry.alone := by
  rw [conclude]
  split
  · rfl
  · rename_i target hjson
    split
    · rename_i after hsave
      obtain ⟨written, hwritten, rfl⟩ := FileSystem.write_eq_ok_iff.mp hsave
      refine FileSystem.alone_entryAt?_put (FileSystem.writable_of_destination? hwritten) _ ?_
      rintro rfl
      exact h target hjson hwritten
    · rfl

end Conclude

section Audit

variable (path : List Char)

/-- An audit stops without a configuration or without an input, and else makes a report. -/
theorem audit_ends : match Config.load fs (configPath choices) with
    | .error error => Stops fs (.config (configPath choices) error) (audit fs path choices)
    | .ok loaded =>
      if fs.pathExists path then
        ∃ audited, Audit.path fs (resolve choices loaded.config) path = some audited ∧
          Reports fs choices (Report.ofIssues audited.value) (audit fs path choices)
      else Stops fs (.noInput path) (audit fs path choices) := by
  rw [audit]
  cases hload : Config.load fs (configPath choices) with
  | error error => exact ⟨rfl, rfl, rfl⟩
  | ok loaded =>
    dsimp only
    cases haudit : Audit.path fs (resolve choices loaded.config) path with
    | none =>
      rw [Audit.path_eq_none_iff.mp haudit, if_neg (by decide)]
      exact ⟨rfl, rfl, rfl⟩
    | some audited =>
      rw [if_pos (Audit.pathExists_of_path haudit)]
      exact ⟨audited, rfl, reports_conclude fs choices audited.value _⟩

theorem status_audit_le : (audit fs path choices).status ≤ 1 := by
  rw [audit]
  split
  · exact Nat.le_refl 1
  · split
    · exact Nat.le_refl 1
    · exact status_conclude_le fs choices _ _

theorem status_audit_eq_zero_iff :
    (audit fs path choices).status = 0 ↔ Succeeds fs (.audit path choices) := by
  rw [audit, Succeeds]
  split
  · rename_i error hload
    simp [hload]
  · rename_i loaded hload
    split
    · rename_i haudit
      simp [hload, haudit]
    · rename_i audited haudit
      rw [status_conclude_eq_zero_iff]
      simp [hload, haudit, Audit.pathExists_of_path haudit]

theorem alone_entryAt?_audit {names : List Name}
    (h : ∀ target, choices.json = some target → fs.destination? target ≠ some names) :
    ((audit fs path choices).fs.entryAt? names).map Entry.alone =
      (fs.entryAt? names).map Entry.alone := by
  rw [audit]
  split
  · rfl
  · split
    · rfl
    · exact alone_entryAt?_conclude fs choices _ _ h

end Audit

end Run

/-- What comes of a run: it succeeds just when nothing stands against it; it stops with one failure
and nothing done, or prints its report, and writes it just where it is asked to. -/
theorem run_ends (fs : FileSystem) (args : List (List Char)) :
    let outcome : Outcome := run fs args
    (outcome.status = 0 ∨ outcome.status = 1) ∧
    (outcome.status = 0 ↔ Run.Succeeds fs (CommandLine.parse args)) ∧
    (∀ path choices, CommandLine.parse args = .audit path choices →
      match Config.load fs (Run.configPath choices) with
      | .error error => Run.Stops fs (.config (Run.configPath choices) error) outcome
      | .ok loaded =>
        if fs.pathExists path then
          ∃ audited, Audit.path fs (Run.resolve choices loaded.config) path = some audited ∧
            Run.Reports fs choices (Report.ofIssues audited.value) outcome
        else Run.Stops fs (.noInput path) outcome) ∧
    (∀ names, (∀ path choices target, CommandLine.parse args = .audit path choices →
        choices.json = some target → fs.destination? target ≠ some names) →
      (outcome.fs.entryAt? names).map Entry.alone = (fs.entryAt? names).map Entry.alone) ∧
    ((∀ path choices, CommandLine.parse args ≠ .audit path choices) → outcome.fs = fs) := by
  simp only [run]
  cases CommandLine.parse args with
  | help => exact ⟨Or.inl rfl, iff_of_true rfl trivial, nofun, fun _ _ => rfl, fun _ => rfl⟩
  | version => exact ⟨Or.inl rfl, iff_of_true rfl trivial, nofun, fun _ _ => rfl, fun _ => rfl⟩
  | misused => exact ⟨Or.inr rfl, iff_of_false nofun id, nofun, fun _ _ => rfl, fun _ => rfl⟩
  | listRules => exact ⟨Or.inl rfl, iff_of_true rfl trivial, nofun, fun _ _ => rfl, fun _ => rfl⟩
  | audit path choices =>
    have hstatus := Run.status_audit_le fs choices path
    refine ⟨?_, Run.status_audit_eq_zero_iff fs choices path, ?_, ?_, ?_⟩
    · change (Run.audit fs path choices).status = 0 ∨ (Run.audit fs path choices).status = 1
      omega
    · rintro _ _ ⟨rfl, rfl⟩
      exact Run.audit_ends fs choices path
    · intro names hnames
      exact Run.alone_entryAt?_audit fs choices path (fun target => hnames path choices target rfl)
    · intro hother
      exact absurd rfl (hother path choices)

/-- A directory with one page in it. -/
def onePage : FileSystem where
  entries := [("p.html".toList, .file "<p>".toUTF8)]
  home := []
  sound := by decide

def savingArgs : List (List Char) := ["p.html".toList, "--json".toList, "r.json".toList]

def savingChoices : Choices :=
  { Choices.none with path := some "p.html".toList, json := some "r.json".toList }

theorem run_ends_saved :
    CommandLine.parse savingArgs = .audit "p.html".toList savingChoices ∧
      let outcome : Outcome := run onePage savingArgs
      outcome.written = some "r.json".toList ∧ ∃ report : Report,
        outcome.fs.readText "r.json".toList = .ok (report.structured ++ "\n").toList := by
  have hparse : CommandLine.parse savingArgs = .audit "p.html".toList savingChoices := rfl
  have hload : Config.load onePage (Run.configPath savingChoices) =
      .ok ⟨Config.default, .noConfig Config.defaultPath.toList⟩ := if_pos (by decide +kernel)
  have hpath : onePage.pathExists "p.html".toList = true := by decide +kernel
  have hplace : onePage.destination? "r.json".toList = some ["r.json".toList] := by decide +kernel
  obtain ⟨_, _, haudit, _⟩ := run_ends onePage savingArgs
  have haudit := haudit "p.html".toList savingChoices hparse
  rw [hload] at haudit
  dsimp only at haudit
  rw [if_pos hpath] at haudit
  obtain ⟨audited, _, hreports⟩ := haudit
  have hwritten := (hreports.written "r.json".toList).mpr
    ⟨rfl, _, FileSystem.write_eq_ok_iff.mpr ⟨_, hplace, rfl⟩⟩
  exact ⟨hparse, hwritten, _, hreports.text _ hwritten⟩

end MarkupAudit
