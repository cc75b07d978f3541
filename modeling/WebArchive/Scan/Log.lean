import WebArchive.Archive.Error
import WebArchive.Gzip.Member
import WebArchive.Record.Basic

/-!
What a scan reports, line by line, and what it counts.
-/
namespace WebArchive

inductive Format where
  | arc
  | arcGz
  | warc
  | warcGz
  | gzip
  deriving DecidableEq

namespace Format

def all : List Format := [.arc, .arcGz, .warc, .warcGz, .gzip]

/-- As the command line spells it. -/
def label : Format → String
  | .arc => "arc"
  | .arcGz => "arc-gz"
  | .warc => "warc"
  | .warcGz => "warc-gz"
  | .gzip => "gzip"

/-- As a log line spells it. -/
def title : Format → String
  | .arc => "Arc"
  | .arcGz => "ArcGz"
  | .warc => "Warc"
  | .warcGz => "WarcGz"
  | .gzip => "Gzip"

end Format

/-- What ended a scan before its end. -/
inductive ScanError where
  | arc (e : ArchiveError)
  | warc (e : ArchiveError)
  | gzip (e : Gzip.Error)
  | stream (e : StreamError)
  deriving DecidableEq

def ScanError.message : ScanError → Text
  | .arc e => "ARC error: ".toList ++ e.message
  | .warc e => "WARC error: ".toList ++ e.message
  | .gzip e => "GZip error: ".toList ++ e.message
  | .stream e => "I/O error: ".toList ++ e.message.toList

structure Report where
  records : Nat := 0
  invalidRecords : Nat := 0
  members : Nat := 0
  invalidMembers : Nat := 0
  deriving DecidableEq

def Report.isClean (r : Report) : Bool := r.invalidRecords = 0 && r.invalidMembers = 0

inductive LogEntry where
  | checking (path : Text) (format : Format)
  | noticed (notice : Gzip.Notice)
  | invalidRecord (number : Nat) (kind : String) (offset : Option Nat) (isCompliant : Bool)
      (problems : Diagnostics)
  | invalidMember (member : Gzip.Member)
  | complete (report : Report)
  | failed (e : ScanError)
  deriving DecidableEq

namespace LogEntry

/-- A field behind the message of a log line. -/
def item (name : String) (value : Text) : Text := ' ' :: name.toList ++ '=' :: value

def boolean (b : Bool) : Text := if b then "true".toList else "false".toList

def optional (value : Option Nat) : Text :=
  match value with
  | some n => "Some(".toList ++ Text.ofNat n ++ [')']
  | none => "None".toList

def listed : List Text → Text
  | [] => []
  | [piece] => piece
  | piece :: pieces => piece ++ [',', ' '] ++ listed pieces

/-- The place of a member, and two values that should be the same. -/
def comparison (index offset : Nat) (stated computed : Text) : Text :=
  item "index" (Text.ofNat index) ++ item "offset" (Text.ofNat offset) ++ item "read" stated ++
    item "computed" computed

def noticeText : Gzip.Notice → Text
  | .headerChecksum index offset found =>
    "gzip header CRC16 mismatch".toList ++
      comparison index offset (optional found.stated.toNat) (optional found.computed.toNat)
  | .dataChecksum index offset found =>
    "gzip data CRC32 mismatch".toList ++
      comparison index offset (Text.ofNat found.stated.toNat) (Text.ofNat found.computed.toNat)
  | .size index offset found =>
    "gzip ISIZE mismatch".toList ++
      comparison index offset (Text.ofNat found.stated.toNat) (optional found.computed.toNat)

/-- The line without the time in front of it. -/
def text : LogEntry → Text
  | .checking path format =>
    "INFO harvest_check: Checking ".toList ++ Text.quotedFile path ++ " as ".toList ++
      format.title.toList
  | .noticed notice => "WARN harvest_archive::gzip::read: ".toList ++ noticeText notice
  | .invalidRecord number kind offset isCompliant problems =>
    "WARN harvest_check: invalid record: ".toList ++ listed (problems.map Diagnostic.display) ++
      item "record" (Text.ofNat number) ++ item "kind" (Text.quoted kind.toList) ++
      item "offset" (optional offset) ++ item "compliant" (boolean isCompliant)
  | .invalidMember member =>
    "WARN harvest_check: invalid gzip member".toList ++ item "member" (Text.ofNat member.index) ++
      item "offset" (Text.ofNat member.offset) ++ item "errors" member.faults.display
  | .complete report =>
    "INFO harvest_check: scan complete".toList ++ item "records" (Text.ofNat report.records) ++
      item "invalid_records" (Text.ofNat report.invalidRecords) ++
      item "members" (Text.ofNat report.members) ++
      item "invalid_members" (Text.ofNat report.invalidMembers)
  | .failed e => "ERROR harvest_check: ".toList ++ e.message

end LogEntry
end WebArchive
