import MarkupAudit.Matcher
import MarkupAudit.Severity

/-!
A rule: what it looks for, and what it says about each match.
-/

namespace MarkupAudit

structure Rule where
  name : String
  matcher : Matcher
  severity : Severity
  /-- The success criterion of the guidelines that the rule checks. -/
  criterion : String
  /-- A short label for the kind of problem. -/
  problem : String
  description : String
  /-- What to do about it. -/
  remedy : String

end MarkupAudit
