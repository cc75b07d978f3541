import WebArchive.Checksum

/-!
The CRC-32 of a message as the remainder of a division: its bits are the coefficients of a
polynomial over the field with two elements. Main fact: `value_update`, the register that bytes are
shifted through ends with the checksum of the message.
-/
namespace WebArchive.Crc32

/-- The sum of two polynomials, as far as the second one goes. -/
def add : List Bool → List Bool → List Bool
  | a :: as, b :: bs => (a ^^ b) :: add as bs
  | _, bs => bs

/-- The coefficients of the divisor behind that of its 32nd power, from the highest one down. -/
def divisor : List Bool :=
  (List.range 32).map fun i => [26, 23, 22, 16, 12, 11, 10, 8, 7, 5, 4, 2, 1, 0].contains (31 - i)

/-- Long division: what is left of a polynomial once its `n` highest coefficients are gone. -/
def divide : Nat → List Bool → List Bool
  | n + 1, b :: p => divide n (if b then add divisor p else p)
  | _, p => p

/-- The `n` low bits of a number, the lowest one first. -/
def bits : Nat → Nat → List Bool
  | 0, _ => []
  | n + 1, v => v.testBit 0 :: bits n (v / 2)

def ofBits : List Bool → Nat
  | [] => 0
  | b :: bs => b.toNat + 2 * ofBits bs

def messageBits (bs : Bytes) : List Bool := bs.flatMap fun b => bits 8 b.toNat

/-- Behind the message come as many zeros as the remainder has places. The first 32 places are
complemented, and so is the remainder. -/
def ofBytes (bs : Bytes) : UInt32 :=
  let ones := List.replicate 32 true
  let message := messageBits bs
  UInt32.ofNat (ofBits (add ones
    (divide message.length (add ones (message ++ List.replicate 32 false)))))

/-- The low half, as gzip headers carry it. -/
def low16 (bs : Bytes) : UInt16 := (ofBytes bs).toUInt16

/-! ### Coefficients -/

theorem add_assoc {p q : List Bool} (within : p.length ≤ q.length) (s : List Bool) :
    add (add p q) s = add p (add q s) := by
  induction p generalizing q s with
  | nil => simp [add]
  | cons a p ih =>
    cases q with
    | nil => simp at within
    | cons b q =>
      cases s with
      | nil => simp [add]
      | cons c s => simp [add, ih (Nat.le_of_succ_le_succ within)]

theorem add_append_false (p s : List Bool) : add (p ++ [false]) s = add p s := by
  induction p generalizing s with
  | nil => cases s <;> simp [add]
  | cons a p ih => cases s <;> simp [add, ih]

theorem add_zeros (p : List Bool) : add p (List.replicate p.length false) = p := by
  induction p with
  | nil => rfl
  | cons a p ih => simp [add, List.replicate_succ, ih]

theorem length_bits (n v : Nat) : (bits n v).length = n := by
  induction n generalizing v with
  | zero => rfl
  | succ n ih => simp [bits, ih]

theorem bits_xor (n v w : Nat) : bits n (v ^^^ w) = add (bits n v) (bits n w) := by
  induction n generalizing v w with
  | zero => rfl
  | succ n ih => simp only [bits, add, ih, Nat.xor_div_two, Nat.testBit_xor]

theorem bits_succ (n v : Nat) : bits (n + 1) v = bits n v ++ [v.testBit n] := by
  induction n generalizing v with
  | zero => rfl
  | succ n ih => rw [bits, ih, bits, List.cons_append, Nat.testBit_succ]

/-- A number with no more than `n` bits is made of them. -/
theorem ofBits_bits {n v : Nat} (within : v >>> n = 0) : ofBits (bits n v) = v := by
  induction n generalizing v with
  | zero => exact within.symm
  | succ n ih =>
    rw [Nat.shiftRight_succ_inside] at within
    rw [bits, ofBits, ih within, Nat.testBit_zero]
    rcases Nat.mod_two_eq_zero_or_one v with even | odd <;> simp [*] <;> omega

/-! ### The register -/

theorem toNat_shiftRight_one (r : UInt32) : (r >>> 1).toNat = r.toNat / 2 := by
  rw [UInt32.toNat_shiftRight]
  rfl

theorem shift_eq (r : UInt32) :
    shift r = if r.toNat.testBit 0 then (r >>> 1) ^^^ 0xEDB88320 else r >>> 1 := by
  have low : r &&& 1 = 1 ↔ r.toNat.testBit 0 = true := by
    rw [← UInt32.toNat_inj, UInt32.toNat_and, Nat.testBit_zero, decide_eq_true_iff]
    exact iff_of_eq (congrArg (· = 1) (Nat.and_one_is_mod r.toNat))
  simp only [shift, low]

/-- A register is shifted as a dividend goes on behind its highest coefficient. -/
theorem bits_shift (r : UInt32) :
    bits 32 (shift r).toNat =
      if r.toNat.testBit 0 then add divisor (bits 31 (r.toNat / 2) ++ [false])
      else bits 31 (r.toNat / 2) ++ [false] := by
  have top : (r.toNat / 2).testBit 31 = false := by
    rw [← Nat.testBit_succ]
    exact Nat.testBit_lt_two_pow r.toNat_lt
  have moved : bits 32 (r >>> 1).toNat = bits 31 (r.toNat / 2) ++ [false] := by
    rw [bits_succ, toNat_shiftRight_one, top]
  have polynomial : bits 32 (0xEDB88320 : UInt32).toNat = divisor := by decide
  rw [shift_eq]
  split
  · rw [UInt32.toNat_xor, Nat.xor_comm, bits_xor, moved, polynomial]
  · exact moved

/-- One more bit of a message. -/
def feed (r : UInt32) (b : Bool) : UInt32 := shift (r ^^^ b.toUInt32)

theorem testBit_feed (r : UInt32) (b : Bool) :
    (r ^^^ b.toUInt32).toNat.testBit 0 = (r.toNat.testBit 0 ^^ b) ∧
      (r ^^^ b.toUInt32).toNat / 2 = r.toNat / 2 := by
  have toNat : b.toUInt32.toNat = b.toNat := by cases b <;> rfl
  rw [UInt32.toNat_xor, toNat, Nat.testBit_xor, Nat.xor_div_two]
  cases b <;> simp

theorem divide_feed (n : Nat) (r : UInt32) (b : Bool) (s : List Bool) :
    divide (n + 1) (add (bits 32 r.toNat) (b :: s)) =
      divide n (add (bits 32 (feed r b).toNat) s) := by
  obtain ⟨first, others⟩ := testBit_feed r b
  have room : divisor.length ≤ (bits 31 (r.toNat / 2) ++ [false]).length := by
    rw [List.length_append, length_bits]
    decide
  rw [feed, bits_shift, first, others, bits, add, divide]
  split
  · rw [add_assoc room, add_append_false]
  · rw [add_append_false]

theorem divide_message (r : UInt32) (message : List Bool) :
    divide message.length (add (bits 32 r.toNat) (message ++ List.replicate 32 false)) =
      bits 32 (message.foldl feed r).toNat := by
  induction message generalizing r with
  | nil =>
    have zeros := add_zeros (bits 32 r.toNat)
    rwa [length_bits] at zeros
  | cons b message ih =>
    rw [List.length_cons, List.cons_append, divide_feed, ih, List.foldl_cons]

/-- The low bit of `w` is shifted out, the others move down. -/
theorem shift_xor (r w : UInt32) :
    shift (r ^^^ w) = feed r (w.toNat.testBit 0) ^^^ (w >>> 1) := by
  obtain ⟨first, others⟩ := testBit_feed r (w.toNat.testBit 0)
  have low : (r ^^^ w).toNat.testBit 0 =
      (r ^^^ (w.toNat.testBit 0).toUInt32).toNat.testBit 0 := by
    rw [first, UInt32.toNat_xor, Nat.testBit_xor]
  have high : (r ^^^ w) >>> 1 = ((r ^^^ (w.toNat.testBit 0).toUInt32) >>> 1) ^^^ (w >>> 1) := by
    apply UInt32.toNat_inj.mp
    rw [toNat_shiftRight_one, UInt32.toNat_xor, UInt32.toNat_xor, toNat_shiftRight_one,
      toNat_shiftRight_one, others, Nat.xor_div_two]
  rw [feed, shift_eq, shift_eq, low, high]
  split
  · rw [UInt32.xor_assoc, UInt32.xor_comm (w >>> 1), UInt32.xor_assoc]
  · rfl

theorem repeat_shift (n : Nat) (r : UInt32) :
    Nat.repeat shift n (shift r) = Nat.repeat shift (n + 1) r := by
  induction n with
  | zero => rfl
  | succ n ih => exact congrArg shift ih

/-- The bits of `w` are fed into the register one by one, or all of them at once. -/
theorem foldl_feed (n : Nat) (r w : UInt32) (within : w.toNat >>> n = 0) :
    (bits n w.toNat).foldl feed r = Nat.repeat shift n (r ^^^ w) := by
  induction n generalizing r w with
  | zero =>
    have none : w = 0 := UInt32.toNat_inj.mp within
    rw [none, UInt32.xor_zero]
    rfl
  | succ n ih =>
    rw [Nat.shiftRight_succ_inside, ← toNat_shiftRight_one] at within
    rw [bits, List.foldl_cons, ← toNat_shiftRight_one, ih _ _ within, ← shift_xor, repeat_shift]

theorem register_update (c : Crc32) (bs : Bytes) :
    (c.update bs).register = (messageBits bs).foldl feed c.register := by
  induction bs generalizing c with
  | nil => rfl
  | cons b bs ih =>
    have within : b.toNat >>> 8 = 0 := by
      rw [Nat.shiftRight_eq_div_pow]
      exact Nat.div_eq_of_lt b.toNat_lt
    have byte : (bits 8 b.toNat).foldl feed c.register = (c.byte b).register :=
      foldl_feed 8 c.register b.toUInt32 within
    rw [messageBits, List.flatMap_cons, List.foldl_append, byte]
    exact ih (c.byte b)

/-- The register takes the message byte by byte and ends with its checksum. -/
theorem value_update (bs : Bytes) : (update {} bs).value = ofBytes bs := by
  have ones : List.replicate 32 true = bits 32 (0xFFFFFFFF : UInt32).toNat := by decide
  have register : (update {} bs).register = (messageBits bs).foldl feed 0xFFFFFFFF :=
    register_update {} bs
  have within : (0xFFFFFFFF ^^^ (update {} bs).register).toNat >>> 32 = 0 := by
    rw [Nat.shiftRight_eq_div_pow]
    exact Nat.div_eq_of_lt (UInt32.toNat_lt _)
  rw [ofBytes, ones, divide_message, ← register, ← bits_xor, ← UInt32.toNat_xor, ofBits_bits within,
    UInt32.ofNat_toNat, value, UInt32.xor_comm]

theorem value16_update (bs : Bytes) : (update {} bs).value16 = low16 bs :=
  congrArg UInt32.toUInt16 (value_update bs)

example : ofBytes [0x31, 0x32, 0x33, 0x34, 0x35, 0x36, 0x37, 0x38, 0x39] = 0xCBF43926 := by
  decide +kernel

end WebArchive.Crc32
