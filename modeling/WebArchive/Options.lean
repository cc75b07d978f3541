import WebArchive.Digest.Basic

/-!
What a reader computes and how much of a header it keeps.
-/
namespace WebArchive

structure ReaderOptions where
  /-- over every content, none to leave it out -/
  blockDigest : Option Digest.Algorithm := some .sha1
  /-- over the HTTP entity in a content, none to leave it out -/
  payloadDigest : Option Digest.Algorithm := some .sha1
  /-- bytes kept of a header line; a longer line is cut and reported -/
  maxHeaderLine : Nat := 8192
  /-- lines kept of a header block; more are read, dropped and reported -/
  maxHeaderLines : Nat := 1024

end WebArchive
