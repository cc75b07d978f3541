import WebArchive.Address
import WebArchive.Text.Basic

/-!
URI references by their characters alone: those that RFC 3986 allows, and percent escapes of two
hexadecimal digits.
-/
namespace WebArchive

/-- A checked reference; `scheme` is what stands before the first colon, if it is a scheme. -/
structure Uri where
  text : Text
  scheme : Option Text
  deriving DecidableEq

namespace Uri

/-- Unreserved and reserved characters. -/
def isPlain (c : Char) : Bool :=
  c.isAlphanum || "-._~:/?#[]@!$&'()*+,;=".toList.contains c

def isReference : Text → Bool
  | [] => true
  | '%' :: a :: b :: rest => Address.isHexDigit a && Address.isHexDigit b && isReference rest
  | c :: rest => isPlain c && isReference rest

/-- A letter, then letters, digits, plus, minus and points. -/
def isScheme : Text → Bool
  | [] => false
  | c :: rest => c.isAlpha && rest.all fun d => d.isAlphanum || d = '+' || d = '-' || d = '.'

def schemeOf (t : Text) : Option Text :=
  (Text.cut ':' t).bind fun (before, _) => if isScheme before then some before else none

def parse? (t : Text) : Option Uri :=
  if t ≠ [] ∧ isReference t then some ⟨t, schemeOf t⟩ else none

def hasScheme (u : Uri) (scheme : String) : Bool :=
  match u.scheme with
  | some s => Text.sameLetters s scheme.toList
  | none => false

def isHttp (u : Uri) : Bool := u.hasScheme "http" || u.hasScheme "https"

end Uri
end WebArchive
