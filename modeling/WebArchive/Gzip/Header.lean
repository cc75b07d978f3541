import WebArchive.Checksum
import WebArchive.Gzip.Flags
import WebArchive.Text.Encoding

/-!
Member headers and their bytes: ten fixed bytes, then the optional sections in a fixed order, and
a checksum of all before it. The flags follow from the sections that are there.
-/
namespace WebArchive.Gzip

structure Header where
  /-- compression method, 8 for deflate -/
  method : UInt8 := 8
  isText : Bool := false
  hasChecksum : Bool := false
  /-- seconds since 1 January 1970, zero if not known -/
  time : UInt32 := 0
  extraFlags : UInt8 := 0
  system : UInt8 := 255
  extra : Option Bytes := none
  /-- ISO-8859-1, without the zero byte at its end -/
  name : Option Bytes := none
  /-- ISO-8859-1, without the zero byte at its end -/
  comment : Option Bytes := none
  deriving DecidableEq

/-- The sections that not every value fits into. -/
inductive Section where
  | extra
  | name
  | comment
  deriving DecidableEq

def Section.label : Section → String
  | .extra => "FEXTRA"
  | .name => "FNAME"
  | .comment => "FCOMMENT"

def magic : Bytes := [0x1F, 0x8B]

def deflateMethod : UInt8 := 8

def extraSection (extra : Bytes) : Bytes := Bytes.littleEndian 2 extra.length ++ extra

def stringSection (value : Bytes) : Bytes := value ++ [0]

namespace Header

def withName (h : Header) (name : Text) : Except Section Header :=
  match Text.latin1? name with
  | some bytes => .ok { h with name := some bytes }
  | none => .error .name

def withComment (h : Header) (comment : Text) : Except Section Header :=
  match Text.latin1? comment with
  | some bytes => .ok { h with comment := some bytes }
  | none => .error .comment

def nameText (h : Header) : Option Text := h.name.map Text.latin1

def commentText (h : Header) : Option Text := h.comment.map Text.latin1

def flags (h : Header) : Flags :=
  ({} : Flags).set .text h.isText
    |>.set .headerChecksum h.hasChecksum
    |>.set .extra h.extra.isSome
    |>.set .name h.name.isSome
    |>.set .comment h.comment.isSome

/-- The ten bytes that every header has, with the given flags. -/
def fixed (h : Header) (flags : Flags) : Bytes :=
  magic ++ [h.method, flags.bits] ++ Bytes.littleEndian 4 h.time.toNat ++ [h.extraFlags, h.system]

def sections (h : Header) : Bytes :=
  h.extra.elim [] extraSection ++ h.name.elim [] stringSection ++ h.comment.elim [] stringSection

/-- The checksum at the end of a header that is marked to have one. -/
def checksum? (h : Header) : Option UInt16 :=
  if h.hasChecksum then some (Crc32.update {} (h.fixed h.flags ++ h.sections)).value16 else none

def bytes (h : Header) : Bytes :=
  h.fixed h.flags ++ h.sections ++
    h.checksum?.elim [] fun checksum => Bytes.littleEndian 2 checksum.toNat

/-- The first section with a value that cannot be written: an extra field whose length does not
fit into two bytes, a string with a zero byte. -/
def misfit? (h : Header) : Option Section :=
  if h.extra.any (65536 ≤ ·.length) then some .extra
  else if h.name.any (0 ∈ ·) then some .name
  else if h.comment.any (0 ∈ ·) then some .comment
  else none

def encode (h : Header) : Except Section Bytes :=
  match h.misfit? with
  | some part => .error part
  | none => .ok h.bytes

theorem length_fixed (h : Header) (flags : Flags) : (h.fixed flags).length = 10 := by
  simp [fixed, magic]

end Header
end WebArchive.Gzip
