/-!
Byte strings, their hexadecimal text, and little-endian numbers. Main fact:
`ofLittleEndian_littleEndian`, a number that fits its field is read back from it.
-/
namespace WebArchive

abbrev Bytes := List UInt8

namespace Bytes

def hexDigit (n : Nat) : Char :=
  if n < 10 then Char.ofNat (48 + n) else Char.ofNat (87 + n)

/-- Two lowercase digits, the high one first. -/
def hexByte (b : UInt8) : List Char :=
  [hexDigit (b.toNat / 16), hexDigit (b.toNat % 16)]

def hex (bs : Bytes) : List Char := bs.flatMap hexByte

/-- The `n` low bytes of `v`, the lowest first. -/
def littleEndian : Nat → Nat → Bytes
  | 0, _ => []
  | n + 1, v => UInt8.ofNat v :: littleEndian n (v / 256)

def ofLittleEndian : Bytes → Nat
  | [] => 0
  | b :: bs => b.toNat + 256 * ofLittleEndian bs

@[simp] theorem length_littleEndian (n v : Nat) : (littleEndian n v).length = n := by
  induction n generalizing v with
  | zero => rfl
  | succ n ih => simp [littleEndian, ih]

theorem shiftLeft_succ (n : Nat) : 1 <<< (8 * (n + 1)) = 256 * 1 <<< (8 * n) := by
  rw [Nat.mul_succ, Nat.shiftLeft_add, Nat.shiftLeft_eq _ 8, Nat.mul_comm]

theorem ofLittleEndian_littleEndian_mod (n v : Nat) :
    ofLittleEndian (littleEndian n v) = v % 1 <<< (8 * n) := by
  induction n generalizing v with
  | zero => simp [littleEndian, ofLittleEndian, Nat.mod_one]
  | succ n ih =>
    have low : (UInt8.ofNat v).toNat = v % 256 := UInt8.toNat_ofNat'
    rw [littleEndian, ofLittleEndian, ih, low, shiftLeft_succ, Nat.mod_mul]

theorem ofLittleEndian_littleEndian (n v : Nat) (h : v < 1 <<< (8 * n)) :
    ofLittleEndian (littleEndian n v) = v := by
  rw [ofLittleEndian_littleEndian_mod, Nat.mod_eq_of_lt h]

theorem littleEndian_ofLittleEndian (bs : Bytes) :
    littleEndian bs.length (ofLittleEndian bs) = bs := by
  induction bs with
  | nil => rfl
  | cons b bs ih =>
    have low : b.toNat < 256 := b.toNat_lt
    have rest : (b.toNat + 256 * ofLittleEndian bs) / 256 = ofLittleEndian bs := by omega
    have head : UInt8.ofNat (b.toNat + 256 * ofLittleEndian bs) = b :=
      UInt8.toNat.inj (by rw [UInt8.toNat_ofNat']; omega)
    simp [littleEndian, ofLittleEndian, rest, head, ih]

theorem ofLittleEndian_lt (bs : Bytes) : ofLittleEndian bs < 1 <<< (8 * bs.length) := by
  induction bs with
  | nil => exact Nat.one_pos
  | cons b bs ih =>
    have low : b.toNat < 256 := b.toNat_lt
    rw [ofLittleEndian, List.length_cons, shiftLeft_succ]
    omega

end Bytes
end WebArchive
