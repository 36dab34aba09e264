import MarkupAudit.Audit
import MarkupAudit.Catalogue.Table
import MarkupAudit.CommandLine.Help
import MarkupAudit.CommandLine.Parse
import MarkupAudit.Config.Load
import MarkupAudit.Report.Console
import MarkupAudit.Report.Save

/-!
A whole run: what a command line does in a file system. A configuration that cannot be loaded and a
path that leads nowhere end the run before anything is printed. A report that cannot be written does
not; it only makes the run fail in the end.
-/

namespace MarkupAudit

open CommandLine (Choices Request)

inductive Failure where
  | config (path : List Char) (error : Config.LoadError)
  | noInput (path : List Char)

namespace Failure

def message : Failure → String
  | noInput path => "Path " ++ String.ofList path ++ " does not exist"
  | config path error =>
    "loading " ++ String.ofList path ++ ": " ++ error.message path ++ ": " ++ error.reason

end Failure

structure Outcome where
  status : Nat
  output : String
  failure : Option Failure
  log : List Event
  /-- The path of the report, if it was written. -/
  written : Option (List Char)
  fs : FileSystem

namespace Run

/-- The configuration of a run: what is chosen on the command line replaces what is in the file. -/
def resolve (choices : Choices) (config : Config) : Config :=
  let strings := fun (texts : List (List Char)) => texts.map String.ofList
  Config.normalized {
    extensions :=
      if choices.extensions.isEmpty then config.extensions else strings choices.extensions
    exclude := if choices.exclude.isEmpty then config.exclude else strings choices.exclude }

def configPath (choices : Choices) : List Char := choices.config.getD Config.defaultPath.toList

def conclude (fs : FileSystem) (choices : Choices) (issues : List Issue) (log : List Event) :
    Outcome :=
  let report := Report.ofIssues issues
  let console := Report.Console.render report
  let shown := shownEvents choices.verbose
  match choices.json with
  | none => ⟨report.exitStatus, console, none, shown log, none, fs⟩
  | some target =>
    match report.save fs target with
    | .ok after =>
      ⟨report.exitStatus, "Report saved to " ++ String.ofList target ++ "\n" ++ console, none,
        shown (log ++ [.reportWritten target]), some target, after⟩
    | .error cause => ⟨1, console, none, shown (log ++ [.reportFailed target cause]), none, fs⟩

def audit (fs : FileSystem) (path : List Char) (choices : Choices) : Outcome :=
  let shown := shownEvents choices.verbose
  match Config.load fs (configPath choices) with
  | .error error => ⟨1, "", some (.config (configPath choices) error), [], none, fs⟩
  | .ok loaded =>
    match Audit.path fs (resolve choices loaded.config) path with
    | none => ⟨1, "", some (.noInput path), shown [loaded.event], none, fs⟩
    | some audited => conclude fs choices audited.value (loaded.event :: audited.log)

end Run

def CommandLine.Request.run (fs : FileSystem) : Request → Outcome
  | .help => ⟨0, CommandLine.help, none, [], none, fs⟩
  | .version => ⟨0, CommandLine.version, none, [], none, fs⟩
  | .misused => ⟨1, "", none, [], none, fs⟩
  | .listRules => ⟨0, Catalogue.table Catalogue.rules, none, [], none, fs⟩
  | .audit path choices => Run.audit fs path choices

def run (fs : FileSystem) (args : List (List Char)) : Outcome := (CommandLine.parse args).run fs

end MarkupAudit
