import MarkupAudit.FileSystem.Resolve

/-!
Arranging a file system entry by entry. Directories that are missing on the way to an entry are
made. A file is written wherever its path leads, also through links; a link is put only where
nothing is yet.
-/

namespace MarkupAudit.FileSystem

def fill (fs : FileSystem) (absolute : Bool) (parts : List Name) (new : Entry) : FileSystem :=
  match fs.follow .look absolute parts with
  | .ok (.vacant names) => fs.put names new
  | _ => fs

/-- Makes the directories on the way along some parts, of which the `passed` ones are there. -/
def makeAll (absolute : Bool) (fs : FileSystem) (passed : List Name) : List Name → FileSystem
  | [] => fs
  | part :: more =>
    let passed := passed ++ [part]
    makeAll absolute (fs.fill absolute passed (.directory [])) passed more

def makeDirectory (fs : FileSystem) (path : List Char) : FileSystem :=
  fs.makeAll (Path.isAbsolute path) [] (Path.parts path)

def makeAbove (fs : FileSystem) (path : List Char) : FileSystem :=
  fs.makeAll (Path.isAbsolute path) [] (Path.parts path).dropLast

def addFile (fs : FileSystem) (path : List Char) (content : ByteArray) : FileSystem :=
  let ready := fs.makeAbove path
  (ready.writeBytes path content).toOption.getD ready

def addLink (fs : FileSystem) (path target : List Char) : FileSystem :=
  (fs.makeAbove path).fill (Path.isAbsolute path) (Path.parts path) (.link target)

end MarkupAudit.FileSystem
