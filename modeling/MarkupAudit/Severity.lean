/-!
How much an accessibility problem hinders a reader.
-/

namespace MarkupAudit

inductive Severity where
  | critical
  | major
  | minor
deriving DecidableEq, Repr

namespace Severity

def all : List Severity := [critical, major, minor]

/-- Only a critical problem breaks compliance. -/
def failsCompliance : Severity → Bool
  | critical => true
  | major => false
  | minor => false

def label : Severity → String
  | critical => "CRITICAL"
  | major => "MAJOR"
  | minor => "MINOR"

def key : Severity → String
  | critical => "critical"
  | major => "major"
  | minor => "minor"

def ofKey? (word : String) : Option Severity := all.find? fun s => s.key == word

theorem mem_all (s : Severity) : s ∈ all := by cases s <;> decide

theorem failsCompliance_iff (s : Severity) : s.failsCompliance = true ↔ s = critical := by
  cases s <;> decide

theorem ofKey?_key (s : Severity) : ofKey? s.key = some s := by cases s <;> decide

end Severity

end MarkupAudit
