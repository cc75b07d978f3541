import WebArchive.Address
import WebArchive.Arc.Version
import WebArchive.Calendar.Timestamp
import WebArchive.ContentType
import WebArchive.Diagnostics
import WebArchive.Stream.Line
import WebArchive.Uri

/-!
ARC header lines: tokens between single spaces, each read as the field that the version puts in
its place. Every field is judged on its own, whatever the others hold. Main fact: `join_tokens`,
the tokens are the whole line.
-/
namespace WebArchive.Arc

/-- A diagnostic about a record as a whole names this field. -/
def recordField : String := "ARC record"

def Field.accepts : Field → Text → Bool
  | .url, t => (Uri.parse? t).isSome
  | .address, t => (Address.parse? t).isSome
  | .date, t => (Calendar.compact? t).isSome
  | .contentType, t => (ContentType.parse? t).isSome
  | .resultCode, t => (Text.integer? t).isSome
  | .offset, t | .length, t => (Text.long? t).isSome
  | .checksum, _ | .location, _ | .fileName, _ => true

/-- A location is only there for redirections. -/
def Field.isOptional (field : Field) : Bool := field = .location

structure Header where
  version : Version
  tokens : List Text
  /-- where the line begins, if that is known -/
  startOffset : Option Nat := none
  /-- the line was longer than what is kept of a line -/
  isCut : Bool := false

namespace Header

def parse (line : Text) (version : Version) (startOffset : Option Nat) : Header :=
  { version, tokens := Text.split ' ' line, startOffset }

def ofLine (line : Line) (version : Version) (startOffset : Option Nat) : Header :=
  { parse line.text version startOffset with isCut := line.truncated }

theorem join_tokens (line : Text) (version : Version) (startOffset : Option Nat) :
    Text.join ' ' (parse line version startOffset).tokens = line :=
  Text.join_split ' ' line

/-! ### Fields -/

/-- The token in the place of a field. The length is the last token, however many there are. -/
def token (h : Header) (field : Field) : Option Text :=
  if field = .length then h.tokens.getLast?
  else (h.version.layout.idxOf? field).bind (h.tokens[·]?)

def tokenNamed (h : Header) (name : Text) : Option Text :=
  (h.version.layout.find? fun field => field.name.toList = name).bind h.token

/-- What a field holds: its token without white space around it, if anything is left then. -/
def held (h : Header) (field : Field) : Option Text :=
  ((h.token field).map Text.trim).filter (· ≠ [])

def value {α : Type} (h : Header) (field : Field) (parse? : Text → Option α) : Option α :=
  (h.held field).bind parse?

def url (h : Header) : Option Uri := h.value .url Uri.parse?

def address (h : Header) : Option Address := h.value .address Address.parse?

def date (h : Header) : Option Calendar.Instant := h.value .date Calendar.compact?

def contentType (h : Header) : Option ContentType := h.value .contentType ContentType.parse?

def resultCode (h : Header) : Option Int := h.value .resultCode Text.integer?

def checksum (h : Header) : Option Text := h.value .checksum some

def location (h : Header) : Option Text := h.value .location some

/-- The offset that the line itself declares. -/
def offset (h : Header) : Option Nat := h.value .offset Text.long?

def fileName (h : Header) : Option Text := h.value .fileName some

def length (h : Header) : Option Nat := h.value .length Text.long?

/-- Contents fetched over HTTP are HTTP messages. -/
def isHttp (h : Header) : Bool := h.url.any Uri.isHttp

/-! ### Diagnostics -/

/-- As many tokens as the version has fields. -/
def isCompliant (h : Header) : Bool := h.tokens.length = h.version.layout.length

def countProblem (h : Header) : Diagnostics :=
  .invalidIf (!h.isCompliant) recordField
    ("expected ".toList ++ Text.ofNat h.version.layout.length ++ " fields, found ".toList ++
      Text.ofNat h.tokens.length)

def problems (h : Header) (field : Field) : Diagnostics :=
  match h.held field with
  | none => if field.isOptional then [] else .missing field.name
  | some t => .invalidIf (!field.accepts t) field.name t

/-- A declared offset has to be the real one. -/
def offsetProblem (h : Header) : Diagnostics :=
  match h.offset, h.startOffset with
  | some declared, some actual =>
    .invalidIf (declared ≠ actual) Field.offset.name (Text.ofNat declared)
  | _, _ => []

def diagnostics (h : Header) : Diagnostics :=
  h.countProblem ++ h.version.layout.flatMap h.problems ++ h.offsetProblem ++
    .invalidIf h.isCut recordField "Header line too long".toList

end Header
end WebArchive.Arc
