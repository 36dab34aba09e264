import MarkupAudit.Grouping
import MarkupAudit.Issue

/-!
The report of an audit: the issues sorted by severity, by file and by kind of problem. Nothing is
reordered within a group, and groups stand in the order in which their first issue was found. The
verdict depends on critical issues alone.
-/

namespace MarkupAudit

inductive Verdict where
  | fail
  | passWithWarnings
deriving DecidableEq, Repr

namespace Verdict

def label : Verdict → String
  | fail => "FAIL"
  | passWithWarnings => "PASS WITH WARNINGS"

def exitStatus : Verdict → Nat
  | fail => 1
  | passWithWarnings => 0

def ofIssues (issues : List Issue) : Verdict :=
  if issues.any (·.severity.failsCompliance) then fail else passWithWarnings

end Verdict

structure Buckets where
  critical : List Issue
  major : List Issue
  minor : List Issue
deriving DecidableEq, Repr

namespace Buckets

def empty : Buckets := ⟨[], [], []⟩

def add (b : Buckets) (issue : Issue) : Buckets :=
  match issue.severity with
  | .critical => { b with critical := b.critical ++ [issue] }
  | .major => { b with major := b.major ++ [issue] }
  | .minor => { b with minor := b.minor ++ [issue] }

def get (b : Buckets) : Severity → List Issue
  | .critical => b.critical
  | .major => b.major
  | .minor => b.minor

def ofIssues (issues : List Issue) : Buckets := issues.foldl add empty

theorem get_add (b : Buckets) (issue : Issue) (s : Severity) :
    (b.add issue).get s = if issue.severity = s then b.get s ++ [issue] else b.get s := by
  cases h : issue.severity <;> cases s <;> simp [add, get, h]

theorem get_foldl_add (issues : List Issue) (b : Buckets) (s : Severity) :
    (issues.foldl add b).get s = b.get s ++ issues.filter (·.severity = s) := by
  induction issues generalizing b with
  | nil => simp
  | cons issue issues ih =>
    rw [List.foldl_cons, ih, get_add]
    by_cases h : issue.severity = s <;> simp [h]

/-- A bucket holds the issues of its severity in the order in which they were found. -/
theorem get_ofIssues (issues : List Issue) (s : Severity) :
    (ofIssues issues).get s = issues.filter (·.severity = s) := by
  rw [ofIssues, get_foldl_add]
  cases s <;> rfl

end Buckets

structure Summary where
  total : Nat
  critical : Nat
  major : Nat
  minor : Nat
  files : Nat
  verdict : Verdict
deriving DecidableEq, Repr

structure Report where
  summary : Summary
  bySeverity : Buckets
  byFile : Grouping String (List Issue)
  patterns : Grouping String Nat
deriving DecidableEq, Repr

namespace Report

def addToFile (byFile : Grouping String (List Issue)) (issue : Issue) :
    Grouping String (List Issue) :=
  byFile.update issue.file [] (· ++ [issue])

def countProblem (patterns : Grouping String Nat) (issue : Issue) : Grouping String Nat :=
  patterns.update issue.problem 0 (· + 1)

def ofIssues (issues : List Issue) : Report :=
  let bySeverity := Buckets.ofIssues issues
  let byFile := issues.foldl addToFile []
  { summary := {
      total := issues.length
      critical := bySeverity.critical.length
      major := bySeverity.major.length
      minor := bySeverity.minor.length
      files := byFile.length
      verdict := Verdict.ofIssues issues }
    bySeverity
    byFile
    patterns := issues.foldl countProblem [] }

def exitStatus (report : Report) : Nat := report.summary.verdict.exitStatus

/-- The most frequent kinds of problem, at most `limit`; of two equally frequent ones the one that
was found first comes first. -/
def topPatterns (report : Report) (limit : Nat) : List (String × Nat) :=
  (report.patterns.mergeSort fun a b => b.2 ≤ a.2).take limit

end Report

end MarkupAudit
