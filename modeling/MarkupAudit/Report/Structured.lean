import MarkupAudit.Json.Printer
import MarkupAudit.Report

/-!
The report as a JSON document. It holds every issue; only the name of the rule that found an issue
is left out.
-/

namespace MarkupAudit

open Json (Value)

def Issue.toJson (issue : Issue) : Value := .ofMembers
  [("file", .ofString issue.file), ("line", .ofNat issue.line),
   ("severity", .ofString issue.severity.key), ("wcag", .ofString issue.criterion),
   ("type", .ofString issue.problem), ("description", .ofString issue.description),
   ("snippet", .ofString issue.snippet), ("fix", .ofString issue.remedy)]

def Summary.toJson (s : Summary) : Value := .ofMembers
  [("total_issues", .ofNat s.total), ("critical_issues", .ofNat s.critical),
   ("major_issues", .ofNat s.major), ("minor_issues", .ofNat s.minor),
   ("files_analyzed", .ofNat s.files), ("wcag_compliance", .ofString s.verdict.label)]

def issuesToJson (issues : List Issue) : Value := .array (issues.map Issue.toJson)

def Buckets.toJson (b : Buckets) : Value := .ofMembers
  [("critical", issuesToJson b.critical), ("major", issuesToJson b.major),
   ("minor", issuesToJson b.minor)]

namespace Report

def toJson (report : Report) : Value := .ofMembers
  [("summary", report.summary.toJson), ("issues_by_severity", report.bySeverity.toJson),
   ("issues_by_file", .ofMembers (report.byFile.map fun entry => (entry.1, issuesToJson entry.2))),
   ("patterns", .ofMembers (report.patterns.map fun entry => (entry.1, .ofNat entry.2)))]

def structured (report : Report) : String := report.toJson.pretty

end Report

end MarkupAudit
