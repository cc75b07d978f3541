import WebArchive.Bytes
import WebArchive.Text.Basic

/-!
The two bit sets of a member: the flag byte of its header, and the faults found in it. Main facts:
`Flags.has_set` and `Faults.has_set`, a bit that is put reads back and the others stay.
-/
namespace WebArchive.Gzip

def testBit (b : UInt8) (place : Fin 8) : Bool := b.toNat.testBit place

def putBit (b : UInt8) (place : Fin 8) (on : Bool) : UInt8 :=
  let mask := UInt8.ofNat (1 <<< place.val)
  if on then b ||| mask else b &&& ~~~mask

theorem testBit_mask (i j : Fin 8) : testBit (UInt8.ofNat (1 <<< j.val)) i = decide (i = j) := by
  revert i j
  decide

theorem testBit_putBit (b : UInt8) (i j : Fin 8) (on : Bool) :
    testBit (putBit b j on) i = if i = j then on else testBit b i := by
  have mask := testBit_mask i j
  have place : i.val < 8 := i.isLt
  unfold putBit
  generalize UInt8.ofNat (1 <<< j.val) = m at mask ⊢
  simp only [testBit, ← UInt8.toNat_toBitVec, BitVec.testBit_toNat] at mask ⊢
  by_cases same : i = j <;> cases on <;> simp_all

inductive Flag where
  /-- the data are probably text -/
  | text
  /-- the header ends with a checksum of itself -/
  | headerChecksum
  | extra
  | name
  | comment
  deriving DecidableEq

def Flag.place : Flag → Fin 8
  | .text => 0
  | .headerChecksum => 1
  | .extra => 2
  | .name => 3
  | .comment => 4

/-- The flag byte; its three high bits are reserved. -/
structure Flags where
  bits : UInt8 := 0
  deriving DecidableEq

namespace Flags

def has (f : Flags) (flag : Flag) : Bool := testBit f.bits flag.place

def set (f : Flags) (flag : Flag) (on : Bool) : Flags := ⟨putBit f.bits flag.place on⟩

def reserved (f : Flags) : UInt8 := f.bits >>> (5 : UInt8)

def withReserved (f : Flags) (value : UInt8) : Flags :=
  ⟨(f.bits &&& (31 : UInt8)) ||| (value <<< (5 : UInt8))⟩

theorem has_set (f : Flags) (flag other : Flag) (on : Bool) :
    (f.set flag on).has other = if other = flag then on else f.has other := by
  have place : other.place = flag.place ↔ other = flag := by
    cases other <;> cases flag <;> decide
  simp [has, set, testBit_putBit, place]

def display (f : Flags) : Text := "GzipFlags(0x".toList ++ Bytes.hexByte f.bits ++ [')']

end Flags

inductive Fault where
  | extraFlags
  | system
  | reservedFlags
  | size
  | headerChecksum
  | dataChecksum
  deriving DecidableEq

def Fault.place : Fault → Fin 8
  | .extraFlags => 0
  | .system => 1
  | .reservedFlags => 2
  | .size => 3
  | .headerChecksum => 4
  | .dataChecksum => 5

/-- The faults of a member; they never stop it from being read. -/
structure Faults where
  bits : UInt8 := 0
  deriving DecidableEq

namespace Faults

def has (f : Faults) (fault : Fault) : Bool := testBit f.bits fault.place

def set (f : Faults) (fault : Fault) (on : Bool) : Faults := ⟨putBit f.bits fault.place on⟩

def union (f : Faults) (bits : UInt8) : Faults := ⟨f.bits ||| bits⟩

def isEmpty (f : Faults) : Bool := f.bits == 0

theorem has_set (f : Faults) (fault other : Fault) (on : Bool) :
    (f.set fault on).has other = if other = fault then on else f.has other := by
  have place : other.place = fault.place ↔ other = fault := by
    cases other <;> cases fault <;> decide
  simp [has, set, testBit_putBit, place]

def display (f : Faults) : Text := "MemberErrors(0x".toList ++ Bytes.hexByte f.bits ++ [')']

end Faults

/-- No statement, best compression or fastest compression. -/
def isKnownCompression (extraFlags : UInt8) : Bool :=
  extraFlags == 0 || extraFlags == 2 || extraFlags == 4

/-- The identifiers up to 13 are assigned, and 255 stands for an unknown system. -/
def isKnownSystem (system : UInt8) : Bool := system ≤ 13 || system == 255

end WebArchive.Gzip
