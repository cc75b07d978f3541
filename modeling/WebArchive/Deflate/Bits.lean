import WebArchive.Deflate.Inflate

/-!
Writing bits: numbers, and bytes of eight bits each. Main facts: `foldl_bit_lowFirst`, a number is
read as it was written, and `foldl_byte_pack`, packed bits are read bit after bit.
-/
namespace WebArchive.Deflate

/-- The `width` low bits of a number, the lowest first. -/
def lowFirst : Nat → Nat → List Bool
  | 0, _ => []
  | width + 1, v => (v % 2 = 1) :: lowFirst width (v / 2)

/-- The `width` low bits of a number, the highest first, as codes are written. -/
def highFirst (width v : Nat) : List Bool := (lowFirst width v).reverse

/-- The byte of at most eight bits, the lowest first. -/
def byteOf (bits : List Bool) : UInt8 := bits.foldr (fun b v => 2 * v + b.toUInt8) 0

/-- Bits in bytes, behind `packed`; the last byte is filled up with zeros. -/
def pack (packed : Array UInt8) : List Bool → Array UInt8
  | b₀ :: b₁ :: b₂ :: b₃ :: b₄ :: b₅ :: b₆ :: b₇ :: rest =>
    pack (packed.push (byteOf [b₀, b₁, b₂, b₃, b₄, b₅, b₆, b₇])) rest
  | [] => packed
  | rest => packed.push (byteOf rest)

theorem bits_byteOf : ∀ b₀ b₁ b₂ b₃ b₄ b₅ b₆ b₇ : Bool,
    State.bits (byteOf [b₀, b₁, b₂, b₃, b₄, b₅, b₆, b₇]) = [b₀, b₁, b₂, b₃, b₄, b₅, b₆, b₇] := by
  decide +kernel

theorem byteOf_append_false (bits : List Bool) (n : Nat) :
    byteOf (bits ++ List.replicate n false) = byteOf bits := by
  have zeros : (List.replicate n false).foldr (fun b v => 2 * v + b.toUInt8) (0 : UInt8) = 0 := by
    induction n with
    | zero => rfl
    | succ n ih => simp [List.replicate_succ, ih, show false.toUInt8 = 0 from rfl]
  simp [byteOf, List.foldr_append, zeros]

theorem bits_byteOf_of_length_le {bits : List Bool} (few : bits.length ≤ 8) :
    State.bits (byteOf bits) = bits ++ List.replicate (8 - bits.length) false := by
  rw [← byteOf_append_false bits (8 - bits.length)]
  have full : (bits ++ List.replicate (8 - bits.length) false).length = 8 := by simp; omega
  generalize bits ++ List.replicate (8 - bits.length) false = eight at full
  match eight, full with
  | [b₀, b₁, b₂, b₃, b₄, b₅, b₆, b₇], _ => exact bits_byteOf b₀ b₁ b₂ b₃ b₄ b₅ b₆ b₇

namespace State

theorem reachedNumber_mode (s : State) (m : Mode) (goal : Goal) (value : Nat) :
    ({ s with mode := m } : State).reachedNumber goal value = s.reachedNumber goal value := by
  cases goal <;>
    simp only [reachedNumber, withLengths, beginCompressed, beginSymbol, corrupted, emitMatch,
      beginDistance]

theorem foldl_bit_lowFirst (s : State) (goal : Goal) (width value place read : Nat)
    (some : 0 < width) (small : value < 1 <<< width) :
    (lowFirst width value).foldl bit { s with mode := .number goal width place read } =
      s.reachedNumber goal (read + value <<< place) := by
  induction width generalizing value place read with
  | zero => omega
  | succ width ih =>
    have step : (if decide (value % 2 = 1) then 1 <<< place else 0) = (value % 2) <<< place := by
      rcases Nat.mod_two_eq_zero_or_one value with h | h <;> simp [h]
    have whole : (value % 2) <<< place + (value / 2) <<< (place + 1) = value <<< place := by
      simp only [Nat.shiftLeft_eq]
      rw [Nat.pow_succ, ← Nat.mul_assoc, Nat.mul_right_comm, ← Nat.add_mul]
      congr 1
      omega
    simp only [lowFirst, List.foldl_cons, bit, step]
    split
    · have : width = 0 := by omega
      subst this
      have : value / 2 = 0 := by simp at small; omega
      rw [this, Nat.zero_shiftLeft, Nat.add_zero] at whole
      rw [reachedNumber_mode, whole]
      rfl
    · rw [Nat.add_sub_cancel, ih (value / 2) (place + 1) _ (by omega)
        (by rw [Nat.shiftLeft_succ] at small; omega), Nat.add_assoc, whole]

theorem bit_of_finished {s : State} (h : s.mode = .finished) (b : Bool) : s.bit b = s := by
  simp [bit, h]

/-- Bits that lead to the end, with others behind them, lie where no whole bytes are expected. -/
theorem byte_eq_foldl_bit (s : State) (b : UInt8) (more : List Bool)
    (h : ((bits b ++ more).foldl bit s).mode = .finished) : s.byte b = (bits b).foldl bit s := by
  unfold byte
  split
  · rename_i mode
    rw [foldl_bit_of_stays fun _ => by simp [bit, mode]] at h
    simp [mode] at h
  · rename_i mode
    rw [foldl_bit_of_stays fun _ => by simp [bit, mode]] at h
    simp [mode] at h
  · rename_i mode
    rw [foldl_bit_of_stays fun _ => by simp [bit, mode]]
  · rename_i mode
    rw [foldl_bit_of_stays fun _ => by simp [bit, mode]]
  · rfl

theorem foldl_byte_pack (bs : List Bool) (packed : Array UInt8) (s : State)
    (h : (bs.foldl bit (packed.toList.foldl byte s)).mode = .finished) :
    (pack packed bs).toList.foldl byte s = bs.foldl bit (packed.toList.foldl byte s) := by
  fun_induction pack packed bs with
  | case1 packed b₀ b₁ b₂ b₃ b₄ b₅ b₆ b₇ rest ih =>
    have eight := bits_byteOf b₀ b₁ b₂ b₃ b₄ b₅ b₆ b₇
    have first := byte_eq_foldl_bit (packed.toList.foldl byte s)
      (byteOf [b₀, b₁, b₂, b₃, b₄, b₅, b₆, b₇]) rest (by rw [eight]; exact h)
    rw [eight] at first
    rw [Array.toList_push, List.foldl_append, List.foldl_cons, List.foldl_nil, first] at ih
    exact ih h
  | case2 => rfl
  | case3 packed rest long _ =>
    have few : rest.length ≤ 8 := by
      match rest, long with
      | [], _ | [_], _ | [_, _], _ | [_, _, _], _ | [_, _, _, _], _ | [_, _, _, _, _], _
      | [_, _, _, _, _, _], _ | [_, _, _, _, _, _, _], _ => simp
      | _ :: _ :: _ :: _ :: _ :: _ :: _ :: _ :: _, long => exact (long _ _ _ _ _ _ _ _ _ rfl).elim
    have padded := bits_byteOf_of_length_le few
    have last : (bits (byteOf rest)).foldl bit (packed.toList.foldl byte s) =
        rest.foldl bit (packed.toList.foldl byte s) := by
      rw [padded, List.foldl_append, foldl_bit_of_stays (bit_of_finished h)]
    rw [Array.toList_push, List.foldl_append, List.foldl_cons, List.foldl_nil,
      byte_eq_foldl_bit _ _ [] (by rw [List.append_nil, last]; exact h), last]

end State

end WebArchive.Deflate
