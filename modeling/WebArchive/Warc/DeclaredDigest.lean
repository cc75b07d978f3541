import WebArchive.Digest.Basic
import WebArchive.Text.Blank

/-!
Digests as header fields declare them: an algorithm, a colon and an encoded value. The encoding is
not decoded here; base 16, 32 and 64 all pass.
-/
namespace WebArchive.Warc

structure DeclaredDigest where
  /-- in small letters -/
  algorithm : Text
  value : Text
  deriving DecidableEq

namespace DeclaredDigest

def isEncoded (c : Char) : Bool := c.isAlphanum || c = '+' || c = '/' || c = '='

def parse? (t : Text) : Option DeclaredDigest :=
  match Text.cut ':' t with
  | some (algorithm, value) =>
    let algorithm := Text.trim algorithm
    let value := Text.trim value
    if algorithm ≠ [] ∧ value ≠ [] ∧ value.all isEncoded then some ⟨Text.lower algorithm, value⟩
    else none
  | none => none

/-- The algorithm, if it is one that can be computed. -/
def known? (d : DeclaredDigest) : Option Digest.Algorithm := Digest.Algorithm.ofLabel? d.algorithm

def display (d : DeclaredDigest) : Text := d.algorithm ++ ':' :: d.value

end DeclaredDigest
end WebArchive.Warc
