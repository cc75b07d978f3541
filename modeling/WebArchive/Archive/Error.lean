import WebArchive.Gzip.Error

/-!
What can end the reading of an archive. Wrong content never does: it is reported as diagnostics of
the record it is found in.
-/
namespace WebArchive

inductive ArchiveError where
  /-- the members of a compressed archive cannot be told apart -/
  | gzip (e : Gzip.Error)
  | stream (e : StreamError)
  deriving DecidableEq

def ArchiveError.message : ArchiveError → Text
  | .gzip e => "GZip error: ".toList ++ e.message
  | .stream e => "I/O error: ".toList ++ e.message.toList

end WebArchive
