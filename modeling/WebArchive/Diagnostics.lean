import WebArchive.Text.Quoted

/-!
Problems found in a header or record. They are collected in order and never stop the reading.
-/
namespace WebArchive

inductive Diagnostic.Kind where
  /-- a mandatory field is absent or empty -/
  | missing
  /-- a value cannot be parsed, or contradicts another one -/
  | invalid
  deriving DecidableEq

/-- One problem: the field it is about, and the raw value if there is one. -/
structure Diagnostic where
  kind : Diagnostic.Kind
  field : String
  value : Option Text := none
  deriving DecidableEq

abbrev Diagnostics := List Diagnostic

namespace Diagnostic

def Kind.name : Kind → String
  | .missing => "missing"
  | .invalid => "invalid"

/-- As a log line shows it: kind, field, and the quoted value. -/
def display (d : Diagnostic) : Text :=
  d.kind.name.toList ++ ' ' :: d.field.toList ++
    (match d.value with
      | some value => [':', ' '] ++ Text.quoted value
      | none => [])

end Diagnostic

namespace Diagnostics

def missing (field : String) : Diagnostics := [⟨.missing, field, none⟩]

def invalid (field : String) (value : Text) : Diagnostics := [⟨.invalid, field, some value⟩]

def invalidIf (condition : Bool) (field : String) (value : Text) : Diagnostics :=
  if condition then invalid field value else []

def count (ds : Diagnostics) (kind : Diagnostic.Kind) (field : String) : Nat :=
  ds.countP fun d => d.kind = kind ∧ d.field = field

end Diagnostics
end WebArchive
