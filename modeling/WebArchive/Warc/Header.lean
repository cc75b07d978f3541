import WebArchive.Diagnostics
import WebArchive.Warc.Field
import WebArchive.Warc.HeaderLine

/-!
WARC header blocks. The value of a field is that of the first line with its name; further lines
with the name are reported and change nothing. Main fact: `first_eq_none`, a field is absent
exactly if no line has its name.
-/
namespace WebArchive.Warc

/-- A diagnostic about a record as a whole names this field. -/
def recordField : String := "WARC record"

def versionField : String := "WARC-Version"

/-- A diagnostic about a line that is no field names this one. -/
def lineField : String := "Header-line"

structure Header where
  versionLine : Text
  /-- with continuations joined -/
  lines : List HeaderLine
  /-- where the version line begins, if that is known -/
  startOffset : Option Nat := none
  /-- problems with the block as it was read -/
  blockProblems : Diagnostics := []

namespace Header

def parse (versionLine : Text) (lines : List Text) (startOffset : Option Nat) : Header :=
  { versionLine, lines := HeaderLine.ofLines lines, startOffset }

def version (h : Header) : Option Version := Version.ofLine? h.versionLine

/-! ### Fields -/

def valueNamed (h : Header) (name : Text) : Option Text :=
  h.lines.findSome? (HeaderLine.valueNamed? name)

def first (h : Header) (field : Field) : Option Text := h.valueNamed field.name.toList

def value {α : Type} (h : Header) (field : Field) (parse? : Text → Option α) : Option α :=
  ((h.first field).filter (· ≠ [])).bind parse?

def type (h : Header) : Option Text := h.value .type some

def recordId (h : Header) : Option Uri := h.value .recordId bracketedUri?

def date (h : Header) : Option Calendar.Instant := h.value .date Calendar.rfc3339?

def contentLength (h : Header) : Option Nat := h.value .contentLength Text.long?

def contentType (h : Header) : Option ContentType := h.value .contentType ContentType.parse?

def targetUri (h : Header) : Option Uri := h.value .targetUri targetUri?

def address (h : Header) : Option Address := h.value .address Address.parse?

def blockDigest (h : Header) : Option DeclaredDigest := h.value .blockDigest DeclaredDigest.parse?

def payloadDigest (h : Header) : Option DeclaredDigest :=
  h.value .payloadDigest DeclaredDigest.parse?

/-- All the records that this one is concurrent to. -/
def concurrentTo (h : Header) : List Uri :=
  let values := h.lines.filterMap (HeaderLine.valueNamed? Field.concurrentTo.name.toList)
  values.filterMap bracketedUri?

def isHttp (h : Header) : Bool :=
  h.contentType.any fun type => type.is "application".toList "http".toList

/-! ### Diagnostics -/

def isCompliant (h : Header) : Bool := h.version.isSome

def versionProblem (h : Header) : Diagnostics :=
  .invalidIf h.version.isNone versionField h.versionLine

/-- What is wrong with a line for a field; `seen` are the fields of the lines before it. -/
def fieldProblems (seen : List Field) (field : Field) (value : Text) : Diagnostics :=
  if field.isRepeatable then .invalidIf (!field.accepts value) field.name value
  else if field ∈ seen then .invalid field.name value
  else if value = [] then (if field.isMandatory then .missing field.name else [])
  else .invalidIf (!field.accepts value) field.name value

def lineProblems (seen : List Field) : List HeaderLine → Diagnostics
  | [] => []
  | .other line :: rest => .invalid lineField line ++ lineProblems seen rest
  | .field name value :: rest =>
    match Field.ofName? name with
    | none => lineProblems seen rest
    | some field => fieldProblems seen field value ++ lineProblems (field :: seen) rest

def absenceProblems (h : Header) : Diagnostics :=
  Field.mandatory.flatMap fun field =>
    if (h.first field).isNone then Diagnostics.missing field.name else []

def diagnostics (h : Header) : Diagnostics :=
  h.versionProblem ++ lineProblems [] h.lines ++ h.absenceProblems ++ h.blockProblems

theorem first_eq_none {h : Header} {field : Field} :
    h.first field = none ↔
      ∀ line ∈ h.lines, HeaderLine.valueNamed? field.name.toList line = none := by
  simp [first, valueNamed]

end Header
end WebArchive.Warc
