import WebArchive.Gzip.Header
import WebArchive.Stream.Error
import WebArchive.Text.Number

/-!
Why a container of members cannot be read on, or a member not be written.
-/
namespace WebArchive.Gzip

inductive Error where
  /-- no member begins where one should -/
  | badMagic (offset : Nat) (first second : UInt8)
  | unsupportedMethod (offset : Nat) (method : UInt8)
  /-- fewer bytes than a header are left -/
  | trailingBytes (offset length : Nat)
  /-- nothing can be compressed through a buffer without room -/
  | emptyBuffer
  | unencodable (part : Section)
  | stream (e : StreamError)
  deriving DecidableEq

namespace Error

def message : Error → Text
  | .badMagic offset first second =>
    "Invalid GZip magic number [".toList ++ Bytes.hexByte first ++ ", ".toList ++
      Bytes.hexByte second ++ "] at offset ".toList ++ Text.ofNat offset
  | .unsupportedMethod offset method =>
    "Unsupported compression method ".toList ++ Text.ofNat method.toNat ++
      " at offset ".toList ++ Text.ofNat offset
  | .trailingBytes offset length =>
    Text.ofNat length ++ " trailing bytes at offset ".toList ++ Text.ofNat offset ++
      " are not a GZip member".toList
  | .emptyBuffer => "Buffer size must be greater than zero".toList
  | .unencodable part =>
    "Header field ".toList ++ part.label.toList ++ " cannot be encoded".toList
  | .stream e => "I/O error: ".toList ++ e.message.toList

end Error
end WebArchive.Gzip
