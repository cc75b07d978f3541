import WebArchive.Digest.Sha1
import WebArchive.Digest.Sha256
import WebArchive.Text.Basic

/-!
The digests computed over record contents. Main fact: `Hasher.update_append`, a digest depends on
the bytes and not on the pieces in which they came.
-/
namespace WebArchive.Digest

inductive Algorithm where
  | sha1
  | sha256
  deriving DecidableEq

namespace Algorithm

def label : Algorithm → String
  | .sha1 => "sha1"
  | .sha256 => "sha256"

/-- The label in any case, with or without a hyphen before the number. -/
def ofLabel? (label : Text) : Option Algorithm :=
  let small := Text.lower label
  if small = "sha1".toList ∨ small = "sha-1".toList then some .sha1
  else if small = "sha256".toList ∨ small = "sha-256".toList then some .sha256
  else none

def compression : Algorithm → Compression
  | .sha1 => Sha1.compression
  | .sha256 => Sha256.compression

end Algorithm

structure Value where
  algorithm : Algorithm
  bytes : Bytes
  deriving DecidableEq

namespace Value

def hex (v : Value) : Text := Bytes.hex v.bytes

/-- The label, a colon and the hexadecimal digits. -/
def display (v : Value) : Text := v.algorithm.label.toList ++ ':' :: v.hex

end Value

structure Hasher where
  algorithm : Algorithm
  running : Running

namespace Hasher

def start (algorithm : Algorithm) : Hasher := ⟨algorithm, algorithm.compression.start⟩

def byte (h : Hasher) (b : UInt8) : Hasher :=
  { h with running := h.algorithm.compression.byte h.running b }

def update (h : Hasher) (bs : Bytes) : Hasher := bs.foldl byte h

def finish (h : Hasher) : Value := ⟨h.algorithm, h.algorithm.compression.finish h.running⟩

/-- What a log shows of a digest in progress: its algorithm. -/
def display (h : Hasher) : Text := "DigestState(".toList ++ h.algorithm.label.toList ++ [')']

theorem update_append (h : Hasher) (a b : Bytes) : h.update (a ++ b) = (h.update a).update b :=
  List.foldl_append

end Hasher

end WebArchive.Digest
