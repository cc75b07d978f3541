import WebArchive.Bytes

/-!
Hashing by 64-byte blocks: bytes gather in a block, a full block is compressed into the chaining
words, and the end is marked by a one bit, zeros and the length in bits. Main fact:
`update_append`, what is gathered from two pieces is what is gathered from their concatenation.
-/
namespace WebArchive.Digest

/-- A compression function over chaining words, and the words that it starts from. -/
structure Compression where
  initial : Array UInt32
  compress : Array UInt32 → Array UInt32 → Array UInt32

/-- A hash in progress: chaining words, the bytes of the block that is not full yet (the last one
first), and the number of bytes taken. -/
structure Running where
  words : Array UInt32
  partialBlock : List UInt8 := []
  filled : Nat := 0
  length : Nat := 0

/-- The 32-bit words of a block, each with its highest byte first. -/
def bigEndianWords : Bytes → List UInt32
  | a :: b :: c :: d :: rest =>
    (a.toUInt32 <<< 24 ||| b.toUInt32 <<< 16 ||| c.toUInt32 <<< 8 ||| d.toUInt32) ::
      bigEndianWords rest
  | _ => []

def bigEndianBytes (w : UInt32) : Bytes :=
  [(w >>> 24).toUInt8, (w >>> 16).toUInt8, (w >>> 8).toUInt8, w.toUInt8]

namespace Compression

def start (k : Compression) : Running := { words := k.initial }

def byte (k : Compression) (r : Running) (b : UInt8) : Running :=
  if r.filled < 63 then
    { r with partialBlock := b :: r.partialBlock, filled := r.filled + 1, length := r.length + 1 }
  else
    let block := (bigEndianWords (b :: r.partialBlock).reverse).toArray
    { words := k.compress r.words block, length := r.length + 1 }

def update (k : Compression) (r : Running) (bs : Bytes) : Running := bs.foldl k.byte r

/-- The one bit, zeros up to eight bytes before the end of a block, and the length in bits. -/
def padding (length : Nat) : Bytes :=
  0x80 :: List.replicate ((119 - length % 64) % 64) 0 ++ (Bytes.littleEndian 8 (8 * length)).reverse

def finish (k : Compression) (r : Running) : Bytes :=
  (k.update r (padding r.length)).words.toList.flatMap bigEndianBytes

theorem update_append (k : Compression) (r : Running) (a b : Bytes) :
    k.update r (a ++ b) = k.update (k.update r a) b :=
  List.foldl_append

end Compression
end WebArchive.Digest
