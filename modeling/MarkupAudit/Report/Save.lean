import MarkupAudit.FileSystem.Resolve
import MarkupAudit.Report.Structured

/-!
Writing the structured report to a file, with a newline at its end.
-/

namespace MarkupAudit.Report

def fileText (report : Report) : String := report.structured ++ "\n"

def save (report : Report) (fs : FileSystem) (path : List Char) :
    Except FileSystem.Cause FileSystem :=
  fs.write path report.fileText

end MarkupAudit.Report
