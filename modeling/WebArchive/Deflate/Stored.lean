import WebArchive.Deflate.Inflate

/-!
Deflate data made of stored blocks, which hold the bytes as they are. Main fact: `inflate_store`,
they inflate to the bytes that were stored.
-/
namespace WebArchive.Deflate

def blockSize : Nat := 65535

/-- The block type and whether it is the last block, the length and its complement, the bytes. -/
def storedBlock (final : Bool) (data : Bytes) : Bytes :=
  (if final then 1 else 0) :: Bytes.littleEndian 2 data.length ++
    Bytes.littleEndian 2 (blockSize - data.length) ++ data

def store (data : Bytes) : Bytes :=
  if _last : data.length ≤ blockSize then storedBlock true data
  else storedBlock false (data.take blockSize) ++ store (data.drop blockSize)
termination_by data.length
decreasing_by
  have : 0 < blockSize := by decide
  simp only [List.length_drop]; omega

namespace State

theorem foldl_byte_stored (data : Bytes) (output : Array UInt8) (final : Bool) (some : data ≠ []) :
    data.foldl byte { mode := .stored data.length, final, output } =
      endBlock { mode := .stored 1, final, output := output ++ data } := by
  induction data generalizing output with
  | nil => exact absurd rfl some
  | cons b bs ih =>
    cases bs with
    | nil => simp [byte, storedByte, endBlock]
    | cons c cs =>
      have step : byte { mode := .stored (b :: c :: cs).length, final, output } b =
          { mode := .stored (c :: cs).length, final, output := output.push b } := by
        simp [byte, storedByte]
      rw [List.foldl_cons, step, ih (output.push b) (by simp)]
      simp

theorem byte_storedType (output : Array UInt8) (final : Bool) :
    byte { output } (if final then 1 else 0) = { mode := .storedHeader [], final, output } := by
  cases final <;> rfl

theorem foldl_byte_fourBytes (a b c d : UInt8) (output : Array UInt8) (final : Bool) :
    [a, b, c, d].foldl byte { mode := .storedHeader [], final, output } =
      storedHeader { mode := .storedHeader [a, b, c], final, output } [a, b, c, d] := by
  simp [byte, storedHeader]

theorem foldl_byte_storedHeader (length : Nat) (small : length ≤ blockSize) (output : Array UInt8)
    (final : Bool) :
    (Bytes.littleEndian 2 length ++ Bytes.littleEndian 2 (blockSize - length)).foldl byte
        { mode := .storedHeader [], final, output } =
      if length = 0 then endBlock { mode := .storedHeader [], final, output }
      else { mode := .stored length, final, output } := by
  have first := Bytes.ofLittleEndian_littleEndian 2 length (by simp [blockSize] at small; omega)
  have second := Bytes.ofLittleEndian_littleEndian 2 (blockSize - length)
    (by simp [blockSize] at small ⊢; omega)
  have total : length + (blockSize - length) = 65535 := by simp [blockSize] at small ⊢; omega
  simp only [Bytes.littleEndian] at first second ⊢
  rw [List.cons_append, List.cons_append, List.nil_append, foldl_byte_fourBytes]
  simp [storedHeader, first, second, total, endBlock]

theorem foldl_byte_storedBlock (data : Bytes) (small : data.length ≤ blockSize)
    (output : Array UInt8) (final : Bool) :
    (storedBlock final data).foldl byte { output } =
      { mode := if final then .finished else .number .blockHeader 3 0 0
        final, output := output ++ data } := by
  have header := foldl_byte_storedHeader data.length small output final
  simp only [List.foldl_append] at header
  simp only [storedBlock, List.cons_append, List.foldl_cons, byte_storedType, List.foldl_append,
    header]
  split
  · rename_i none
    have : data = [] := List.eq_nil_of_length_eq_zero none
    subst this
    simp [endBlock]
  · rename_i some
    rw [foldl_byte_stored data output final (by rintro rfl; simp at some)]
    simp [endBlock]

end State

theorem foldl_byte_store (data : Bytes) (output : Array UInt8) :
    (store data).foldl State.byte { output } =
      { mode := .finished, final := true, output := output ++ data } := by
  fun_induction store data generalizing output with
  | case1 data small => rw [State.foldl_byte_storedBlock data small output true]; simp
  | case2 data large ih =>
    rw [List.foldl_append, State.foldl_byte_storedBlock _ (List.length_take_le ..) output false]
    simp only [Bool.false_eq_true, if_false]
    rw [ih]
    congr 1
    apply Array.ext'
    simp

theorem inflate_store (data : Bytes) :
    inflate (store data) = { mode := .finished, final := true, output := data.toArray } := by
  have := foldl_byte_store data #[]
  simpa [inflate] using this

end WebArchive.Deflate
