import WebArchive.Bytes

/-!
The CRC-32 of compressed members, kept as a register that bytes are shifted through.
Main fact: `update_append`, the register after two pieces is that after their concatenation.
-/
namespace WebArchive

structure Crc32 where
  register : UInt32 := 0xFFFFFFFF

namespace Crc32

/-- One bit: shift, and fold the polynomial in if a one fell out. -/
def shift (r : UInt32) : UInt32 :=
  if r &&& 1 = 1 then (r >>> 1) ^^^ 0xEDB88320 else r >>> 1

def byte (c : Crc32) (b : UInt8) : Crc32 :=
  ⟨Nat.repeat shift 8 (c.register ^^^ b.toUInt32)⟩

def update (c : Crc32) (bs : Bytes) : Crc32 := bs.foldl byte c

def value (c : Crc32) : UInt32 := c.register ^^^ 0xFFFFFFFF

/-- The low half, as gzip headers carry it. -/
def value16 (c : Crc32) : UInt16 := c.value.toUInt16

theorem update_append (c : Crc32) (a b : Bytes) : c.update (a ++ b) = (c.update a).update b :=
  List.foldl_append

end Crc32
end WebArchive
