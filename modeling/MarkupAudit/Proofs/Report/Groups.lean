import MarkupAudit.Proofs.Grouping
import MarkupAudit.Report

/-!
The groups of a report, and its verdict. Both groups are gathered from the issues: the issues of
each file in their order, and the number of issues of each kind of problem.
-/

namespace MarkupAudit.Report

theorem absorb_append (old issues : List Issue) :
    Grouping.absorb (fun issue value => value ++ [issue]) old issues = old ++ issues := by
  induction issues generalizing old with
  | nil => exact (List.append_nil old).symm
  | cons issue issues ih => exact (ih (old ++ [issue])).trans (List.append_assoc old [issue] issues)

theorem absorb_count (start : Nat) (issues : List Issue) :
    Grouping.absorb (fun _ count => count + 1) start issues = start + issues.length := by
  induction issues generalizing start with
  | nil => rfl
  | cons issue issues ih =>
    rw [List.length_cons, Nat.add_comm issues.length, ← Nat.add_assoc]
    exact ih (start + 1)

theorem byFile_eq (issues : List Issue) : (ofIssues issues).byFile =
    Grouping.gather (·.file) [] (fun issue value => value ++ [issue]) issues := rfl

theorem patterns_eq (issues : List Issue) : (ofIssues issues).patterns =
    Grouping.gather (·.problem) 0 (fun _ count => count + 1) issues := rfl

theorem files_eq (issues : List Issue) :
    (ofIssues issues).summary.files = (ofIssues issues).byFile.length := rfl

theorem keys_byFile (issues : List Issue) :
    (ofIssues issues).byFile.keys = (issues.map (·.file)).eraseDups :=
  Grouping.keys_gather _ _ _ issues

theorem keys_patterns (issues : List Issue) :
    (ofIssues issues).patterns.keys = (issues.map (·.problem)).eraseDups :=
  Grouping.keys_gather _ _ _ issues

theorem nodup_keys_byFile (issues : List Issue) : (ofIssues issues).byFile.keys.Nodup :=
  Grouping.nodup_keys_gather _ _ _ issues

theorem nodup_keys_patterns (issues : List Issue) :
    (ofIssues issues).patterns.keys.Nodup :=
  Grouping.nodup_keys_gather _ _ _ issues

/-- A kind of problem counts its issues; one without issues is no key. -/
theorem get?_patterns (issues : List Issue) (problem : String) :
    (ofIssues issues).patterns.get? problem =
      if issues.countP (·.problem = problem) = 0 then none
      else some (issues.countP (·.problem = problem)) := by
  have hmem : problem ∈ issues.map (·.problem) ↔ ¬issues.countP (·.problem = problem) = 0 := by
    simp [List.countP_eq_zero]
  rw [patterns_eq, Grouping.get?_gather, absorb_count, Nat.zero_add, ← List.countP_eq_length_filter]
  simp only [hmem, ite_not]

theorem get_bySeverity (issues : List Issue) (s : Severity) :
    (ofIssues issues).bySeverity.get s = issues.filter (·.severity = s) :=
  Buckets.get_ofIssues issues s

theorem verdict_eq_fail_iff (issues : List Issue) :
    (ofIssues issues).summary.verdict = .fail ↔ ∃ issue ∈ issues, issue.severity = .critical := by
  simp [ofIssues, Verdict.ofIssues, Severity.failsCompliance_iff]

end MarkupAudit.Report
