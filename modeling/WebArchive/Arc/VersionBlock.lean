import WebArchive.Arc.Header
import WebArchive.Payload.Basic

/-!
The first record of an ARC file: its content declares the version of the file and the fields of
the header lines. The version depends on the declared numbers alone, whatever else is wrong.
-/
namespace WebArchive.Arc

structure VersionBlock where
  header : Header
  /-- version 1 when an unknown one, or none, is declared -/
  version : Version
  /-- major and minor number as they are written -/
  numbers : Option (Text × Text)
  origin : Option Text
  fieldDescription : Option Text
  blockDigest : Option Digest.Value
  diagnostics : Diagnostics

namespace VersionBlock

def scheme : String := "filedesc"

def versionField : String := "Version"

def descriptionField : String := "Field-description"

/-- The lines of a text, without white space around them; a line feed at the very end begins no
line. -/
def lines (t : Text) : List Text :=
  let pieces := Text.split '\n' t
  (if pieces.getLast? = some [] then pieces.dropLast else pieces).map Text.trim

def versionLine (line : Text) : Text × Text × Option Text :=
  match Text.cut ' ' line with
  | none => (line, [], none)
  | some (major, rest) =>
    match Text.cut ' ' rest with
    | none => (major, rest, none)
    | some (minor, origin) => (major, minor, some origin)

/-- The URL names the file by a scheme of its own. -/
def urlProblem (header : Header) : Diagnostics :=
  match header.url with
  | some url => .invalidIf (!url.hasScheme scheme) Field.url.name url.text
  | none => []

def declared? (first : Option Text) : Option Version :=
  first.bind fun line =>
    let (major, minor, _) := versionLine line
    Version.ofNumbers? major minor

def versionProblem (first : Option Text) : Diagnostics :=
  match first with
  | none => .missing versionField
  | some line => .invalidIf (declared? first).isNone versionField line

def descriptionProblem (version : Version) (second : Option Text) : Diagnostics :=
  match second with
  | none | some [] => .missing descriptionField
  | some line => .invalidIf (line ≠ version.description) descriptionField line

def ofContent (header : Header) (content : Bytes) (summary : Payload.Summary) : VersionBlock :=
  let found := lines (Text.utf8Lossy content)
  let first := found[0]?.filter (· ≠ [])
  let second := found[1]?
  let version := (declared? first).getD .v1
  { header
    version
    numbers := first.map fun line => ((versionLine line).1, (versionLine line).2.1)
    origin := first.bind fun line => (versionLine line).2.2
    fieldDescription := second
    blockDigest := summary.blockDigest
    diagnostics :=
      header.diagnostics ++ urlProblem header ++ summary.diagnostics recordField ++
        versionProblem first ++ descriptionProblem version second }

variable {σ : Type} [Readable σ]

def read (header : Header) (payload : Payload σ) : Answer (Payload σ) VersionBlock :=
  (Readable.readAll payload).andThen fun content payload =>
    payload.close.map fun summary => ofContent header content summary

def url (b : VersionBlock) : Option Uri := b.header.url

def isCompliant (b : VersionBlock) : Bool := b.header.isCompliant

end VersionBlock
end WebArchive.Arc
