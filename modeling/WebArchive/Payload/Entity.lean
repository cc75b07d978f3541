import WebArchive.Digest.Basic

/-!
Finding the HTTP entity inside a record content: after `HTTP/`, the header ends at an empty line,
which is a line feed, any number of carriage returns and another line feed. What follows is
digested. Main fact: `update_append`, the scan does not depend on the pieces it is fed.
-/
namespace WebArchive

namespace EntityScan

inductive Phase where
  /-- these bytes of the opening are still expected -/
  | opening (expected : Bytes)
  /-- inside the header; whether the current line holds nothing but carriage returns -/
  | header (lineEmpty : Bool)
  | entity
  /-- not an HTTP message -/
  | other
  deriving DecidableEq

/-- `HTTP/` -/
def opening : Bytes := [0x48, 0x54, 0x54, 0x50, 0x2F]

end EntityScan

/-- A scan in progress: bytes seen, where the entity begins, and the digest of the entity. -/
structure EntityScan where
  phase : EntityScan.Phase := .opening EntityScan.opening
  seen : Nat := 0
  offset : Option Nat := none
  hasher : Digest.Hasher

namespace EntityScan

def start (algorithm : Digest.Algorithm) : EntityScan := { hasher := .start algorithm }

def Phase.next (b : UInt8) : Phase → Phase
  | .opening (e :: rest) =>
    if b ≠ e then .other else if rest = [] then .header false else .opening rest
  | .opening [] => .other
  | .header lineEmpty =>
    if b = 10 then (if lineEmpty then .entity else .header true)
    else if b = 13 then .header lineEmpty
    else .header false
  | .entity => .entity
  | .other => .other

def byte (s : EntityScan) (b : UInt8) : EntityScan :=
  let phase := s.phase.next b
  { phase
    seen := s.seen + 1
    offset := if s.phase ≠ .entity ∧ phase = .entity then some (s.seen + 1) else s.offset
    hasher := if s.phase = .entity then s.hasher.byte b else s.hasher }

def update (s : EntityScan) (bs : Bytes) : EntityScan := bs.foldl byte s

/-- The offset of the entity and its digest, if the end of a header was found. -/
def finish (s : EntityScan) : Option (Nat × Digest.Value) :=
  s.offset.map fun offset => (offset, s.hasher.finish)

theorem update_append (s : EntityScan) (a b : Bytes) : s.update (a ++ b) = (s.update a).update b :=
  List.foldl_append

end EntityScan
end WebArchive
