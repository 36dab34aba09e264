import MarkupAudit.Config
import MarkupAudit.FileSystem.Basic
import MarkupAudit.Text.Inert
import MarkupAudit.Text.Quoted

/-!
What a run tells about its course. Each event has a level; a quiet run shows warnings and errors
only.
-/

namespace MarkupAudit

open FileSystem (Cause)

inductive Level where
  | error
  | warn
  | info
  | debug
deriving DecidableEq, Repr

namespace Level

def label : Level → String
  | error => "ERROR"
  | warn => "WARN"
  | info => "INFO"
  | debug => "DEBUG"

def isUrgent : Level → Bool
  | error => true
  | warn => true
  | info => false
  | debug => false

end Level

inductive Event where
  | noConfig (path : List Char)
  | configLoaded (config : Config)
  | treeStarted (root : List Char)
  | rootExcluded (root : List Char)
  | entrySkipped (path : List Char) (cause : Cause)
  | fileScanned (path : List Char) (issues : Nat)
  | fileFailed (path : List Char) (cause : Cause)
  | treeFinished (files issues : Nat)
  | reportWritten (path : List Char)
  | reportFailed (path : List Char) (cause : Cause)

namespace Event

def level : Event → Level
  | noConfig _ => .debug
  | configLoaded _ => .debug
  | treeStarted _ => .info
  | rootExcluded _ => .info
  | entrySkipped _ _ => .warn
  | fileScanned _ _ => .debug
  | fileFailed _ _ => .error
  | treeFinished _ _ => .info
  | reportWritten _ => .debug
  | reportFailed _ _ => .error

def quotedList (items : List String) : String :=
  "[" ++ ", ".intercalate (items.map fun item => String.ofList (Text.quoted item.toList)) ++ "]"

def message : Event → String
  | noConfig path => "Config file not found at " ++ String.ofList path ++ ", using defaults"
  | configLoaded config =>
    "Loaded configuration config=ScanConfig \x7b extensions: " ++ quotedList config.extensions ++
      ", exclude: " ++ quotedList config.exclude ++ " \x7d"
  | treeStarted root => "Scanning directory: " ++ String.ofList root
  | rootExcluded root => String.ofList root ++ " lies inside an excluded directory"
  | entrySkipped path cause =>
    "Skipping unreadable entry: IO error for operation on " ++ String.ofList path ++ ": " ++
      cause.message
  | fileScanned path issues => String.ofList path ++ ": " ++ toString issues ++ " issue(s)"
  | fileFailed path cause => "Error auditing " ++ String.ofList path ++ ": " ++ cause.message
  | treeFinished files issues =>
    "Scanned " ++ toString files ++ " files, found " ++ toString issues ++ " issues"
  | reportWritten path => "Structured report written to " ++ String.ofList path
  | reportFailed path cause =>
    "Failed to write " ++ String.ofList path ++ ": IO error: " ++ cause.message

/-- The line of an event in the log. A path in it cannot command the terminal. -/
def line (event : Event) : String :=
  event.level.label ++ " " ++ String.ofList (Text.inert event.message.toList)

end Event

def shownEvents (verbose : Bool) (log : List Event) : List Event :=
  log.filter fun event => verbose || event.level.isUrgent

end MarkupAudit
