import WebArchive.Calendar.Instant
import WebArchive.Gzip.Found

/-!
What is known of a member of a container: its place and header, and, once its data have been
inflated to the end, its sizes and checksums. Main fact: `has_faults`, each fault is there exactly
if its own condition holds.
-/
namespace WebArchive.Gzip

structure Ending where
  compressedSize : Nat
  size : Nat
  checksum : Comparison UInt32
  /-- the size in the trailer, which has 32 bits -/
  shortSize : Comparison UInt32
  deriving DecidableEq

structure Member where
  index : Nat
  /-- where the header begins in the container -/
  offset : Nat
  header : Header
  headerLength : Nat
  reserved : UInt8 := 0
  headerChecksum : Option (Comparison UInt16) := none
  ending : Option Ending := none
  deriving DecidableEq

namespace Member

def trailerLength : Nat := 8

def ofFound (index offset : Nat) (found : Found) : Member :=
  { index
    offset
    header := found.header
    headerLength := found.length
    reserved := found.reserved
    headerChecksum := found.checksum }

def isComplete (m : Member) : Bool := m.ending.isSome

/-- The time in the header, unless it is left out. -/
def date (m : Member) : Option Calendar.Instant :=
  if m.header.time = 0 then none else some { seconds := m.header.time.toNat }

def totalLength (m : Member) : Option Nat :=
  m.ending.map fun ending => m.headerLength + ending.compressedSize + trailerLength

def disagrees {α : Type} [DecidableEq α] (c : Option (Comparison α)) : Bool :=
  c.any fun c => !c.agrees

def isFaulty (m : Member) : Fault → Bool
  | .extraFlags => !isKnownCompression m.header.extraFlags
  | .system => !isKnownSystem m.header.system
  | .reservedFlags => m.reserved != 0
  | .size => disagrees (m.ending.map (·.shortSize))
  | .headerChecksum => disagrees m.headerChecksum
  | .dataChecksum => disagrees (m.ending.map (·.checksum))

def faults (m : Member) : Faults :=
  [.extraFlags, .system, .reservedFlags, .size, .headerChecksum, .dataChecksum].foldl
    (fun faults fault => faults.set fault (m.isFaulty fault)) {}

def isValid (m : Member) : Bool := m.faults.isEmpty

def isCompliant (m : Member) : Bool := !m.isFaulty .reservedFlags

theorem has_faults (m : Member) (fault : Fault) : m.faults.has fault = m.isFaulty fault := by
  cases fault <;> simp [faults, Faults.has_set]

/-- The trailer of a member: the checksum of its data and their size, modulo 2^32. -/
def trailer (data : Crc32) (size : Nat) : Bytes :=
  Bytes.littleEndian 4 data.value.toNat ++ Bytes.littleEndian 4 size

theorem length_trailer (data : Crc32) (size : Nat) :
    (trailer data size).length = trailerLength := by
  simp [trailer, trailerLength]

def withTrailer (m : Member) (trailer : Bytes) (data : Crc32) (compressedSize size : Nat) :
    Member :=
  { m with
    ending := some
      { compressedSize
        size
        checksum := ⟨UInt32.ofNat (Bytes.ofLittleEndian (trailer.take 4)), data.value⟩
        shortSize := ⟨UInt32.ofNat (Bytes.ofLittleEndian (trailer.drop 4)), UInt32.ofNat size⟩ } }

end Member

/-- A mismatch between what a member states and what is computed, as it is noticed. -/
inductive Notice where
  | headerChecksum (index offset : Nat) (found : Comparison UInt16)
  | dataChecksum (index offset : Nat) (found : Comparison UInt32)
  | size (index offset : Nat) (found : Comparison UInt32)
  deriving DecidableEq

namespace Member

def headerNotices (m : Member) : List Notice :=
  match m.headerChecksum with
  | some found => if found.agrees then [] else [.headerChecksum m.index m.offset found]
  | none => []

def trailerNotices (m : Member) : List Notice :=
  match m.ending with
  | some ending =>
    (if ending.checksum.agrees then [] else [.dataChecksum m.index m.offset ending.checksum]) ++
      (if ending.shortSize.agrees then [] else [.size m.index m.offset ending.shortSize])
  | none => []

end Member
end WebArchive.Gzip
