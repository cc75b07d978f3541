import WebArchive.Address
import WebArchive.Calendar.Timestamp
import WebArchive.ContentType
import WebArchive.Uri
import WebArchive.Warc.DeclaredDigest

/-!
The header fields that are read for their meaning, and the versions of the format.
-/
namespace WebArchive.Warc

inductive Version where
  | v1_0
  | v1_1
  deriving DecidableEq

namespace Version

def text : Version → String
  | .v1_0 => "WARC/1.0"
  | .v1_1 => "WARC/1.1"

def ofLine? (line : Text) : Option Version :=
  [.v1_0, .v1_1].find? fun v => v.text.toList = Text.trim line

end Version

def bracketedUri? : Text → Option Uri
  | '<' :: rest => if rest.getLast? = some '>' then Uri.parse? rest.dropLast else none
  | _ => none

/-- A URI that may be in angle brackets, as older files have it. -/
def targetUri? (t : Text) : Option Uri :=
  if t.head? = some '<' ∧ t.tail.getLast? = some '>' then bracketedUri? t else Uri.parse? t

inductive Field where
  | type
  | recordId
  | date
  | contentLength
  | contentType
  | targetUri
  | address
  | blockDigest
  | payloadDigest
  | concurrentTo
  deriving DecidableEq

namespace Field

def name : Field → String
  | .type => "WARC-Type"
  | .recordId => "WARC-Record-ID"
  | .date => "WARC-Date"
  | .contentLength => "Content-Length"
  | .contentType => "Content-Type"
  | .targetUri => "WARC-Target-URI"
  | .address => "WARC-IP-Address"
  | .blockDigest => "WARC-Block-Digest"
  | .payloadDigest => "WARC-Payload-Digest"
  | .concurrentTo => "WARC-Concurrent-To"

def all : List Field :=
  [.type, .recordId, .date, .contentLength, .contentType, .targetUri, .address, .blockDigest,
   .payloadDigest, .concurrentTo]

/-- The fields that every header has, in the order in which missing ones are reported. -/
def mandatory : List Field := [.type, .recordId, .date, .contentLength]

/-- Field names may be in any case. -/
def ofName? (name : Text) : Option Field := all.find? fun f => Text.sameLetters name f.name.toList

def isMandatory (f : Field) : Bool := mandatory.contains f

/-- A record may be concurrent to several others. -/
def isRepeatable (f : Field) : Bool := f = .concurrentTo

def accepts : Field → Text → Bool
  | .type, _ => true
  | .recordId, t | .concurrentTo, t => (bracketedUri? t).isSome
  | .date, t => (Calendar.rfc3339? t).isSome
  | .contentLength, t => (Text.long? t).isSome
  | .contentType, t => (ContentType.parse? t).isSome
  | .targetUri, t => (targetUri? t).isSome
  | .address, t => (Address.parse? t).isSome
  | .blockDigest, t | .payloadDigest, t => (DeclaredDigest.parse? t).isSome

end Field
end WebArchive.Warc
