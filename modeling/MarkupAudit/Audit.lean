import MarkupAudit.Log
import MarkupAudit.Scan
import MarkupAudit.Walk

/-!
Auditing files and directories. A file that cannot be read or decoded costs its own issues only; an
audit fails only when its path leads nowhere.
-/

namespace MarkupAudit

structure Logged (α : Type) where
  value : α
  log : List Event

namespace Audit

open FileSystem (Cause)

def file (fs : FileSystem) (path : List Char) : Except Cause (List Issue) :=
  (fs.readText path).map (Scan.content (String.ofList path))

/-- The issues of one file; none when it cannot be read. -/
def fileOrNone (fs : FileSystem) (path : List Char) : Logged (List Issue) :=
  match file fs path with
  | .ok issues => ⟨issues, [.fileScanned path issues.length]⟩
  | .error cause => ⟨[], [.fileFailed path cause]⟩

def step (fs : FileSystem) : Walk.Step → Logged (List Issue)
  | .file path => fileOrNone fs path
  | .unreadable path cause => ⟨[], [.entrySkipped path cause]⟩

def steps (fs : FileSystem) (walk : List Walk.Step) : Logged (List Issue) :=
  let audited := walk.map (step fs)
  ⟨audited.flatMap (·.value), audited.flatMap (·.log)⟩

def tree (fs : FileSystem) (config : Config) (root : List Char) : Logged (List Issue) :=
  if config.excludesPath root then ⟨[], [.treeStarted root, .rootExcluded root]⟩
  else
    let walk := Walk.fromRoot fs config root
    let audited := steps fs walk
    ⟨audited.value, .treeStarted root :: audited.log ++
      [.treeFinished (walk.countP (·.isFile)) audited.value.length]⟩

/-- The issues at a path; nothing when the path leads nowhere. A file that is named itself is
scanned whatever its extension. -/
def path (fs : FileSystem) (config : Config) (path : List Char) : Option (Logged (List Issue)) :=
  if !fs.pathExists path then none
  else if fs.isFile path then some (fileOrNone fs path)
  else some (tree fs config path)

end Audit

end MarkupAudit
