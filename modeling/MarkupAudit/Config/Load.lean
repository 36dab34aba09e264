import MarkupAudit.Config.Decode
import MarkupAudit.FileSystem.Resolve
import MarkupAudit.Log

/-!
Loading the configuration from a file. A file that is missing stands for the default configuration.
-/

namespace MarkupAudit.Config

open FileSystem (Cause)

inductive LoadError where
  | unreadable (cause : Cause)
  /-- The file holds no configuration; the text of the file is kept to point into it. -/
  | invalid (text : List Char) (error : DecodeError)

namespace LoadError

def reason : LoadError → String
  | unreadable cause => cause.message
  | invalid text error => error.message text

def message (path : List Char) (error : LoadError) : String :=
  match error with
  | unreadable _ => "IO error: " ++ error.reason
  | invalid _ _ => "Invalid configuration in " ++ String.ofList path ++ ": " ++ error.reason

end LoadError

structure Loaded where
  config : Config
  event : Event

def load (fs : FileSystem) (path : List Char) : Except LoadError Loaded :=
  if !fs.pathExists path then .ok ⟨default, .noConfig path⟩
  else
    match fs.readText path with
    | .error cause => .error (.unreadable cause)
    | .ok text =>
      match decode text with
      | .error error => .error (.invalid text error)
      | .ok config => .ok ⟨config.normalized, .configLoaded config⟩

end MarkupAudit.Config
