import MarkupAudit.Config
import MarkupAudit.FileSystem.Resolve

/-!
What an audit of a directory comes upon, in order. The entries of a directory are taken in the order
of their names, and a directory is gone through where its name stands. Names that are left out are
not entered. A link to a file counts as a file; a link to a directory is entered only where the walk
begins. What cannot be read is passed over.
-/

namespace MarkupAudit.Walk

open FileSystem (Name Entry Cause)

/-- Names in the order of their code points. -/
def nameLE (a b : Name) : Bool := !decide (b < a)

inductive Step where
  | file (path : List Char)
  | unreadable (path : List Char) (cause : Cause)

def Step.isFile : Step → Bool
  | file _ => true
  | unreadable _ _ => false

mutual

def steps (fs : FileSystem) (config : Config) (path : List Char) : Entry → List Step
  | .file _ => if config.matchesExtension path then [.file path] else []
  | .link _ => if fs.isFile path && config.matchesExtension path then [.file path] else []
  | .directory entries =>
    if FileSystem.isTooLong path then [.unreadable path .nameTooLong]
    else ((below fs config path entries).mergeSort fun a b => nameLE a.1 b.1).flatMap (·.2)

def below (fs : FileSystem) (config : Config) (path : List Char) :
    List (Name × Entry) → List (Name × List Step)
  | [] => []
  | (name, entry) :: more =>
    if config.excludesName name then below fs config path more
    else (name, steps fs config (Path.join path name) entry) :: below fs config path more

end

/-- The walk from a root on, which may itself be a link. -/
def fromRoot (fs : FileSystem) (config : Config) (root : List Char) : List Step :=
  match fs.entry .look root with
  | .error cause => [.unreadable root cause]
  | .ok (.link _) =>
    match fs.entry .follow root with
    | .error cause => [.unreadable root cause]
    | .ok entry => steps fs config root entry
  | .ok entry => steps fs config root entry

end MarkupAudit.Walk
