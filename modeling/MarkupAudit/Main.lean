import MarkupAudit.Run

/-!
The program. It takes a picture of the tree below the working directory, runs in it, and puts the
report where the run has put it. What stands beside the working directory is not seen.
-/

namespace MarkupAudit.Program

open FileSystem (Entry Name)

/-- The entry of a directory with all that is below it. A link has the path of what it leads to as
its target, and one that leads nowhere keeps leading nowhere. -/
partial def picture (entry : IO.FS.DirEntry) : IO Entry := do
  match (← entry.path.symlinkMetadata).type with
  | .dir =>
    let entries ← entry.path.readDir
    return .directory (← entries.toList.mapM fun inner => do
      return (inner.fileName.toList, ← picture inner))
  | .symlink =>
    let real ← try pure (← IO.FS.realPath entry.path).toString catch _ => pure entry.fileName
    return .link real.toList
  | _ => return .file (← try IO.FS.readBinFile entry.path catch _ => pure .empty)

def workingTree : IO FileSystem := do
  let top ← IO.FS.realPath "."
  let home := (Path.components top.toString.toList).drop 1
  match ← picture ⟨top, "."⟩ with
  | .directory entries => return .ofHome home entries
  | _ => return .ofHome home []

end MarkupAudit.Program

open MarkupAudit in
def main (args : List String) : IO UInt32 := do
  let outcome := run (← Program.workingTree) (args.map String.toList)
  for event in outcome.log do
    IO.eprintln event.line
  match outcome.written with
  | none => pure ()
  | some path =>
    match outcome.fs.readText path with
    | .ok text => IO.FS.writeFile (String.ofList path) (String.ofList text)
    | .error _ => pure ()
  IO.print outcome.output
  match outcome.failure with
  | none => pure ()
  | some failure => IO.eprintln ("Error: " ++ failure.message)
  return outcome.status.toUInt32
