import MarkupAudit.Rule

/-!
An issue: one match of a rule in a file, with all that a report says about it.
-/

namespace MarkupAudit

structure Issue where
  rule : String
  file : String
  /-- The line where the match starts, counted from one. -/
  line : Nat
  severity : Severity
  criterion : String
  problem : String
  description : String
  snippet : String
  remedy : String
deriving DecidableEq, Repr

namespace Issue

def ofRule (rule : Rule) (file : String) (line : Nat) (snippet : String) : Issue where
  rule := rule.name
  file := file
  line := line
  severity := rule.severity
  criterion := rule.criterion
  problem := rule.problem
  description := rule.description
  snippet := snippet
  remedy := rule.remedy

def location (issue : Issue) : String := issue.file ++ ":" ++ toString issue.line

end Issue

end MarkupAudit
