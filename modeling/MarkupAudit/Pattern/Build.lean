import MarkupAudit.Pattern.Basic
import MarkupAudit.Text.Blank
import MarkupAudit.Text.Digit
import MarkupAudit.Text.Fold

/-!
Ways to put patterns together. Literals are read without regard to case.
-/

namespace MarkupAudit.Pattern

def optional (p : Pattern) : Pattern := either p empty

def plus (p : Pattern) : Pattern := seq p (star p)

def concat : List Pattern → Pattern
  | [] => empty
  | [p] => p
  | p :: q :: ps => seq p (concat (q :: ps))

/-- Any of the patterns, an earlier one preferred. -/
def choice : List Pattern → Pattern
  | [] => notAhead empty
  | [p] => p
  | p :: q :: ps => either p (choice (q :: ps))

def literal (word : String) : Pattern := concat (word.toList.map fun c => char (Text.sameLetter c))

def exactly (c : Char) : Pattern := char (· == c)

def anyOf (cs : List Char) : Pattern := char (cs.contains ·)

def noneOf (cs : List Char) : Pattern := char (!cs.contains ·)

def between (first last : Char) : Pattern := char fun c => first ≤ c && c ≤ last

def anyChar : Pattern := char fun _ => true

def blank : Pattern := char Text.isBlank

def digit : Pattern := char Text.isDigit

def quote : Pattern := anyOf ['"', '\'']

end MarkupAudit.Pattern
