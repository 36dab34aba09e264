import MarkupAudit.Proofs.Json.Printed
import MarkupAudit.Proofs.Report.Groups
import MarkupAudit.Report.Structured

/-!
The structured report can be read back. Its text is a document of one value, and from the value the
whole report is decoded (`ofJson?_toJson`), but for the names of the rules, which are not written.
-/

namespace MarkupAudit

namespace Json.Value

def text? : Value → Option String
  | string text => some (String.ofList text)
  | _ => none

def nat? : Value → Option Nat
  | number digits => if isWhole digits then some (Nat.ofDigitChars 10 digits 0) else none
  | _ => none

def items? : Value → Option (List Value)
  | array items => some items
  | _ => none

def members? : Value → Option (List (String × Value))
  | object members => some (members.map fun member => (String.ofList member.1, member.2))
  | _ => none

/-- The values of an object whose members have just the given names, in the given order. -/
def fields? (names : List String) (value : Value) : Option (List Value) :=
  value.members?.bind fun members =>
    if members.map (·.1) = names then some (members.map (·.2)) else none

@[simp]
theorem text?_ofString (text : String) : (ofString text).text? = some text := by
  rw [ofString, text?, String.ofList_toList]

@[simp]
theorem nat?_ofNat (n : Nat) : (ofNat n).nat? = some n := by
  rw [ofNat, nat?, if_pos (isWhole_iff.mpr (isWhole_repr n)), Nat.toList_repr,
    Nat.ofDigitChars_ten_toDigits]

theorem members?_ofMembers (members : List (String × Value)) :
    (ofMembers members).members? = some members := by
  simp [ofMembers, members?, Function.comp_def]

theorem fields?_ofMembers (members : List (String × Value)) :
    (ofMembers members).fields? (members.map (·.1)) = some (members.map (·.2)) := by
  rw [fields?, members?_ofMembers, Option.bind_some, if_pos rfl]

end Json.Value

namespace Json

theorem printable_ofNat (n : Nat) : Printable (.ofNat n) := .number (isNumber_repr n)

theorem printable_ofString (text : String) : Printable (.ofString text) := .string text.toList

theorem printable_ofMembers {members : List (String × Value)}
    (h : ∀ member ∈ members, Printable member.2) : Printable (.ofMembers members) := by
  refine .object ?_
  intro member hmember
  obtain ⟨source, hsource, rfl⟩ := List.mem_map.mp hmember
  exact h source hsource

end Json

open Json (Value Printable printable_ofNat printable_ofString printable_ofMembers)

/-- Reading each item of a list works when each can be read. -/
theorem mapM_map_eq_some {α β γ : Type} {f : β → Option γ} {encode : α → β} {g : α → γ}
    (h : ∀ a, f (encode a) = some (g a)) (items : List α) :
    (items.map encode).mapM f = some (items.map g) := by
  induction items with
  | nil => rfl
  | cons item items ih => simp [h, ih]

namespace Verdict

def ofLabel? (word : String) : Option Verdict :=
  [fail, passWithWarnings].find? fun verdict => verdict.label == word

theorem ofLabel?_label (verdict : Verdict) : ofLabel? verdict.label = some verdict := by
  cases verdict <;> decide

end Verdict

namespace Issue

/-- The issue without the name of its rule. -/
def unnamed (issue : Issue) : Issue := { issue with rule := "" }

def ofJson? (value : Value) : Option Issue :=
  match value.fields?
    ["file", "line", "severity", "wcag", "type", "description", "snippet", "fix"] with
  | some [file, line, severity, criterion, problem, description, snippet, remedy] => do
    return {
      rule := ""
      file := ← file.text?
      line := ← line.nat?
      severity := ← severity.text?.bind Severity.ofKey?
      criterion := ← criterion.text?
      problem := ← problem.text?
      description := ← description.text?
      snippet := ← snippet.text?
      remedy := ← remedy.text? }
  | _ => none

theorem ofJson?_toJson (issue : Issue) : ofJson? issue.toJson = some issue.unnamed := by
  have hfields : issue.toJson.fields?
      ["file", "line", "severity", "wcag", "type", "description", "snippet", "fix"] = _ :=
    Json.Value.fields?_ofMembers _
  rw [ofJson?, hfields]
  simp [Severity.ofKey?_key, unnamed]

theorem toJson_unnamed (issue : Issue) : issue.unnamed.toJson = issue.toJson := rfl

theorem printable_toJson (issue : Issue) : Printable issue.toJson := by
  refine printable_ofMembers ?_
  simp [printable_ofNat, printable_ofString]

end Issue

def issuesOfJson? (value : Value) : Option (List Issue) :=
  value.items?.bind fun items => items.mapM Issue.ofJson?

theorem issuesOfJson?_issuesToJson (issues : List Issue) :
    issuesOfJson? (issuesToJson issues) = some (issues.map Issue.unnamed) :=
  mapM_map_eq_some Issue.ofJson?_toJson issues

theorem issuesToJson_unnamed (issues : List Issue) :
    issuesToJson (issues.map Issue.unnamed) = issuesToJson issues := by
  rw [issuesToJson, List.map_map]
  rfl

theorem printable_issuesToJson (issues : List Issue) : Printable (issuesToJson issues) := by
  refine .array ?_
  intro value hvalue
  obtain ⟨issue, _, rfl⟩ := List.mem_map.mp hvalue
  exact issue.printable_toJson

namespace Summary

def ofJson? (value : Value) : Option Summary :=
  match value.fields? ["total_issues", "critical_issues", "major_issues", "minor_issues",
    "files_analyzed", "wcag_compliance"] with
  | some [total, critical, major, minor, files, verdict] => do
    return {
      total := ← total.nat?
      critical := ← critical.nat?
      major := ← major.nat?
      minor := ← minor.nat?
      files := ← files.nat?
      verdict := ← verdict.text?.bind Verdict.ofLabel? }
  | _ => none

theorem ofJson?_toJson (s : Summary) : ofJson? s.toJson = some s := by
  have hfields : s.toJson.fields? ["total_issues", "critical_issues", "major_issues",
      "minor_issues", "files_analyzed", "wcag_compliance"] = _ := Json.Value.fields?_ofMembers _
  rw [ofJson?, hfields]
  simp [Verdict.ofLabel?_label]

theorem printable_toJson (s : Summary) : Printable s.toJson := by
  refine printable_ofMembers ?_
  simp [printable_ofNat, printable_ofString]

end Summary

namespace Buckets

def unnamed (b : Buckets) : Buckets where
  critical := b.critical.map Issue.unnamed
  major := b.major.map Issue.unnamed
  minor := b.minor.map Issue.unnamed

def ofJson? (value : Value) : Option Buckets :=
  match value.fields? ["critical", "major", "minor"] with
  | some [critical, major, minor] => do
    return {
      critical := ← issuesOfJson? critical
      major := ← issuesOfJson? major
      minor := ← issuesOfJson? minor }
  | _ => none

theorem ofJson?_toJson (b : Buckets) : ofJson? b.toJson = some b.unnamed := by
  have hfields : b.toJson.fields? ["critical", "major", "minor"] = _ :=
    Json.Value.fields?_ofMembers _
  rw [ofJson?, hfields]
  simp [issuesOfJson?_issuesToJson, unnamed]

theorem toJson_unnamed (b : Buckets) : b.unnamed.toJson = b.toJson := by
  simp only [toJson, unnamed, issuesToJson_unnamed]

theorem printable_toJson (b : Buckets) : Printable b.toJson := by
  refine printable_ofMembers ?_
  simp [printable_issuesToJson]

end Buckets

namespace Grouping

variable {ν : Type}

/-- The grouping that an object holds, its members in their order. -/
def ofJson? (read : Value → Option ν) (value : Value) : Option (Grouping String ν) :=
  value.members?.bind fun members => members.mapM fun member => (read member.2).map (member.1, ·)

theorem ofJson?_ofMembers {μ : Type} {read : Value → Option μ} {write : ν → Value} {change : ν → μ}
    (h : ∀ v, read (write v) = some (change v)) (g : Grouping String ν) :
    ofJson? read (.ofMembers (g.map fun entry => (entry.1, write entry.2))) =
      some (g.map fun entry => (entry.1, change entry.2)) := by
  rw [ofJson?, Json.Value.members?_ofMembers, Option.bind_some]
  refine mapM_map_eq_some ?_ g
  intro entry
  rw [h]
  rfl

end Grouping

namespace Report

/-- The report without the names of the rules that found its issues. -/
def unnamed (report : Report) : Report where
  summary := report.summary
  bySeverity := report.bySeverity.unnamed
  byFile := report.byFile.map fun entry => (entry.1, entry.2.map Issue.unnamed)
  patterns := report.patterns

def ofJson? (value : Value) : Option Report :=
  match value.fields? ["summary", "issues_by_severity", "issues_by_file", "patterns"] with
  | some [summary, bySeverity, byFile, patterns] => do
    return {
      summary := ← Summary.ofJson? summary
      bySeverity := ← Buckets.ofJson? bySeverity
      byFile := ← Grouping.ofJson? issuesOfJson? byFile
      patterns := ← Grouping.ofJson? Json.Value.nat? patterns }
  | _ => none

variable (report : Report)

theorem ofJson?_toJson : ofJson? report.toJson = some report.unnamed := by
  have hfields : report.toJson.fields?
      ["summary", "issues_by_severity", "issues_by_file", "patterns"] = _ :=
    Json.Value.fields?_ofMembers _
  have hfiles := Grouping.ofJson?_ofMembers issuesOfJson?_issuesToJson report.byFile
  have hpatterns := Grouping.ofJson?_ofMembers Json.Value.nat?_ofNat report.patterns
  rw [ofJson?, hfields]
  simp [Summary.ofJson?_toJson, Buckets.ofJson?_toJson, hfiles, hpatterns, unnamed]

theorem toJson_unnamed : report.unnamed.toJson = report.toJson := by
  simp only [toJson, unnamed, Buckets.toJson_unnamed, List.map_map, Function.comp_def,
    issuesToJson_unnamed]

theorem printable_toJson : Printable report.toJson := by
  refine printable_ofMembers ?_
  simp only [List.forall_mem_cons]
  refine ⟨report.summary.printable_toJson, report.bySeverity.printable_toJson, ?_, ?_, by simp⟩
  · refine printable_ofMembers (List.forall_mem_map.mpr ?_)
    exact fun entry _ => printable_issuesToJson entry.2
  · refine printable_ofMembers (List.forall_mem_map.mpr ?_)
    exact fun entry _ => printable_ofNat entry.2

theorem read_structured : Json.read report.structured.toList = some report.toJson :=
  Json.read_pretty report.printable_toJson

theorem document_structured_iff {value : Value} :
    Json.Document value report.structured.toList ↔ value = report.toJson := by
  rw [← Json.read_eq_some_iff, read_structured, Option.some.injEq, eq_comm]

variable {report}

theorem structured_inj {other : Report} :
    report.structured = other.structured ↔ report.unnamed = other.unnamed := by
  constructor
  · intro h
    have hvalue : report.toJson = other.toJson := by
      rw [← document_structured_iff, ← h, document_structured_iff]
    have hdecoded := report.ofJson?_toJson
    rw [hvalue, ofJson?_toJson] at hdecoded
    exact (Option.some.inj hdecoded).symm
  · intro h
    rw [structured, structured, ← toJson_unnamed report, h, toJson_unnamed]

/-- The text of a report is a document that spells the report and nothing else. All of it is read
back but the names of the rules, with files and kinds of problem in the order in which they were
found, and reports that differ in more than these names differ in their texts. -/
theorem structured_reads_back (issues : List Issue) :
    let report : Report := ofIssues issues
    (∀ value, Json.Document value report.structured.toList ↔ value = report.toJson) ∧
    (Json.read report.structured.toList).bind ofJson? = some report.unnamed ∧
    report.byFile.keys = (issues.map (·.file)).eraseDups ∧ report.byFile.keys.Nodup ∧
    report.patterns.keys = (issues.map (·.problem)).eraseDups ∧ report.patterns.keys.Nodup ∧
    ∀ a b : Report, a.structured = b.structured ↔ a.unnamed = b.unnamed := by
  refine ⟨fun _ => document_structured_iff _, ?_, keys_byFile issues, nodup_keys_byFile issues,
    keys_patterns issues, nodup_keys_patterns issues, fun _ _ => structured_inj⟩
  rw [read_structured, Option.bind_some]
  exact ofJson?_toJson _

end Report

end MarkupAudit
