import WebArchive.CommandLine

/-!
The program: opens the file that the command line names and prints the log of the check.
-/
namespace WebArchive

/-- Files are read in pieces of this many bytes. -/
def filePiece : Nat := 8192

/-- What comes of a file that could not be read. A directory can be opened, but not read. -/
def ofFileError : IO.Error → Except StreamError Source
  | .noFileOrDirectory .. => .error (.device .notFound "No such file or directory (os error 2)")
  | .permissionDenied .. => .error (.device .permissionDenied "Permission denied (os error 13)")
  | .inappropriateType .. =>
    .ok ⟨[.failure (.device .isDirectory "Is a directory (os error 21)")]⟩
  | e => .error (.device .other (toString e))

def readFile (path : Text) : IO (Except StreamError Source) := do
  try
    let bytes ← IO.FS.readBinFile (String.ofList path)
    return .ok (Source.cut filePiece (.ofBytes bytes.toList))
  catch e => return ofFileError e

end WebArchive

open WebArchive in
def main (args : List String) : IO UInt32 := do
  let command := CommandLine.parse (args.map String.toList)
  let file ← match command with
    | .check request => readFile request.path
    | _ => pure (.ok ⟨[]⟩)
  let ending := command.ending fun _ => file
  for line in ending.lines do
    IO.println (String.ofList line)
  if let some complaint := ending.complaint then
    IO.eprintln s!"error: {complaint}"
  return UInt32.ofNat ending.exitCode
