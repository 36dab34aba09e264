import MarkupAudit.Catalogue
import MarkupAudit.Issue
import MarkupAudit.Text.Line

/-!
Scanning the text of a file: every rule of the catalogue in turn, and the matches of a rule from
left to right.
-/

namespace MarkupAudit.Scan

def issueAt (rule : Rule) (file : String) (text : List Char) (lines : List (List Char))
    (offset : Nat) : Issue :=
  let line := Text.lineAt text offset
  Issue.ofRule rule file line (String.ofList (Text.unlines (Text.around lines line)))

def withRule (file : String) (text : List Char) (rule : Rule) : List Issue :=
  let lines := Text.lines text
  (rule.matcher.findAll text).map fun span => issueAt rule file text lines span.start

def content (file : String) (text : List Char) : List Issue :=
  Catalogue.rules.flatMap (withRule file text)

end MarkupAudit.Scan
