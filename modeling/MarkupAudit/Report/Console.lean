import MarkupAudit.Report

/-!
The report for a reader at a terminal: the counts, the verdict, the first few critical and major
issues, and the most frequent kinds of problem.
-/

namespace MarkupAudit.Report.Console

def issuesShown : Nat := 5

def patternsShown : Nat := 5

def bar (width : Nat) (c : Char) : String := String.ofList (List.replicate width c)

def summaryLines (s : Summary) : List String :=
  ["", bar 60 '=', "ACCESSIBILITY AUDIT REPORT - WCAG 2.0 AA", bar 60 '=',
   "", "📊 SUMMARY", bar 40 '-',
   "Files Analyzed: " ++ toString s.files,
   "Total Issues: " ++ toString s.total,
   "  🔴 Critical: " ++ toString s.critical,
   "  🟠 Major: " ++ toString s.major,
   "  🟡 Minor: " ++ toString s.minor,
   "", "Compliance Status: " ++ s.verdict.label]

def criticalLines (issue : Issue) : List String :=
  ["", "📍 " ++ issue.location,
   "   Type: " ++ issue.problem,
   "   WCAG: " ++ issue.criterion,
   "   Fix: " ++ issue.remedy]

def majorLines (issue : Issue) : List String :=
  ["", "📍 " ++ issue.location,
   "   Type: " ++ issue.problem,
   "   Fix: " ++ issue.remedy]

/-- A heading and the first issues, or nothing when there are none. -/
def issueSection (title : String) (describe : Issue → List String) (issues : List Issue) :
    List String :=
  if issues.isEmpty then []
  else "" :: title :: bar 40 '-' :: (issues.take issuesShown).flatMap describe

def patternLine (pattern : String × Nat) : String :=
  "  " ++ pattern.1 ++ ": " ++ toString pattern.2 ++ " occurrences"

def lines (report : Report) : List String :=
  summaryLines report.summary ++
    issueSection "🔴 CRITICAL ISSUES (Must Fix)" criticalLines report.bySeverity.critical ++
    issueSection "🟠 MAJOR ISSUES (Should Fix)" majorLines report.bySeverity.major ++
    ["", "📈 PATTERN ANALYSIS", bar 40 '-'] ++
    (report.topPatterns patternsShown).map patternLine ++
    ["", bar 60 '=']

def joinLines (lines : List String) : String := String.join (lines.map (· ++ "\n"))

def render (report : Report) : String := joinLines (lines report)

end MarkupAudit.Report.Console
