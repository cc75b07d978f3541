/-!
Why a stream could not go on. Interruptions are the errors after which the same call is made again.
-/
namespace WebArchive

inductive ErrorKind where
  | interrupted
  | unexpectedEof
  | invalidData
  | connectionReset
  | timedOut
  | wouldBlock
  | unsupported
  | notFound
  | isDirectory
  | permissionDenied
  | other
  deriving DecidableEq

inductive StreamError where
  /-- reported by the device under the stream -/
  | device (kind : ErrorKind) (message : String)
  /-- the stream ended inside a field of known length -/
  | shortRead
  /-- the stream ended before the zero byte of a header string -/
  | unterminatedString
  /-- the stream ended inside the compressed data of a member -/
  | truncatedMember
  /-- the compressed data break the rules of their format -/
  | corruptDeflate
  /-- streams only go forward -/
  | cannotRewind
  /-- a content was read to its end and is not summed up -/
  | unfinalized
  deriving DecidableEq

namespace StreamError

def kind : StreamError → ErrorKind
  | .device kind _ => kind
  | .shortRead | .unterminatedString | .truncatedMember => .unexpectedEof
  | .corruptDeflate => .invalidData
  | .cannotRewind => .unsupported
  | .unfinalized => .other

def message : StreamError → String
  | .device _ message => message
  | .shortRead => "failed to fill whole buffer"
  | .unterminatedString => "unterminated GZip header string"
  | .truncatedMember => "gzip member data is truncated"
  | .corruptDeflate => "deflate decompression error"
  | .cannotRewind => "mark/reset is not supported"
  | .unfinalized => "payload could not be finalized"

def isInterrupted (e : StreamError) : Bool := e.kind = .interrupted

end StreamError
end WebArchive
