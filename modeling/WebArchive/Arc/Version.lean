import WebArchive.Text.Basic

/-!
The versions of the ARC format. A version fixes the fields of a header line and their order; in
both of them the length of the content comes last.
-/
namespace WebArchive.Arc

inductive Field where
  | url
  | address
  | date
  | contentType
  | resultCode
  | checksum
  | location
  | offset
  | fileName
  | length
  deriving DecidableEq

def Field.name : Field → String
  | .url => "URL"
  | .address => "IP-address"
  | .date => "Archive-date"
  | .contentType => "Content-type"
  | .resultCode => "Result-code"
  | .checksum => "Checksum"
  | .location => "Location"
  | .offset => "Offset"
  | .fileName => "Filename"
  | .length => "Archive-length"

inductive Version where
  | v1
  | v2
  deriving DecidableEq

namespace Version

/-- The version that a file declares by its major and minor number. -/
def ofNumbers? (major minor : Text) : Option Version :=
  if major = ['1'] ∧ (minor = ['0'] ∨ minor = ['1']) then some .v1
  else if major = ['2'] ∧ minor = ['0'] then some .v2
  else none

/-- The fields of a header line in their order. -/
def layout : Version → List Field
  | .v1 => [.url, .address, .date, .contentType, .length]
  | .v2 => [.url, .address, .date, .contentType, .resultCode, .checksum, .location, .offset,
            .fileName, .length]

def place? (v : Version) (name : Text) : Option Nat :=
  v.layout.findIdx? fun field => field.name.toList = name

/-- The line with which a file announces its fields. -/
def description (v : Version) : Text := Text.join ' ' (v.layout.map fun field => field.name.toList)

theorem getLast?_layout (v : Version) : v.layout.getLast? = some .length := by
  cases v <;> rfl

end Version
end WebArchive.Arc
