import WebArchive.Deflate.Compressor
import WebArchive.Proofs.Deflate.Machine

/-!
What the compressor writes is the whole of some compressed data: without its last byte the machine
is not finished. Main facts: `encodes_compress`, and `Deflater.faithful`, the calls of the deflater
hand out compressed data whichever way the data are fed.
-/
namespace WebArchive.Deflate

namespace State

theorem Needs.of_dropLast {s : State} {z output : Bytes} (finished : (z.foldl byte s).isFinished)
    (same : (z.foldl byte s).output.toList = output)
    (going : (z.dropLast.foldl byte s).isFinished = false) : Needs s z output where
  finished := finished
  output := same
  whole p part other := by
    cases done : (p.foldl byte s).isFinished with
    | false => rfl
    | true =>
      have short : p.length ≤ z.dropLast.length := by
        have := part.length_le
        have : p.length ≠ z.length := fun same => other (part.eq_of_length same)
        rw [List.length_dropLast]
        omega
      obtain ⟨more, split⟩ := List.prefix_of_prefix_length_le part (List.dropLast_prefix z) short
      rw [← split, List.foldl_append, foldl_byte_of_isFinished done, done] at going
      exact absurd going (by decide)

/-! ### Codes in bytes -/

theorem not_isFinished_before {s : State} {bs : List Bool}
    (going : (bs.foldl bit s).isFinished = false) : s.isFinished = false := by
  cases done : s.isFinished with
  | false => rfl
  | true => rw [foldl_bit_of_isFinished done, done] at going; exact going

theorem not_isFinished_literalCode {codes : Codes} {symbol : Nat} {bs : List Bool} {w : Walk}
    (h : codes.literal.symbol? w bs = some symbol) (s : State) :
    (bs.dropLast.foldl bit { s with mode := .literalSymbol codes w }).isFinished = false := by
  induction bs generalizing w with
  | nil => simp [PrefixCode.symbol?] at h
  | cons b bs ih =>
    cases bs with
    | nil => rfl
    | cons c cs =>
      unfold PrefixCode.symbol? at h
      rw [List.dropLast_cons_of_ne_nil (by simp), List.foldl_cons]
      simp only [bit]
      cases reached : codes.literal.advance w b with
      | symbol t => simp [reached] at h
      | inside w' => simp only [reached] at h; exact ih h
      | nothing => simp [reached] at h

theorem not_isFinished_pack {bs : List Bool} {packed : Array UInt8} {s : State} (some : bs ≠ [])
    (finished : (bs.foldl bit (packed.toList.foldl byte s)).isFinished)
    (going : (bs.dropLast.foldl bit (packed.toList.foldl byte s)).isFinished = false) :
    ((pack packed bs).toList.dropLast.foldl byte s).isFinished = false := by
  -- whole bytes are taken off until less than nine bits are left, which lie in the last byte
  fun_induction pack packed bs with
  | case1 packed b₀ b₁ b₂ b₃ b₄ b₅ b₆ b₇ rest ih =>
    have eight := bits_byteOf b₀ b₁ b₂ b₃ b₄ b₅ b₆ b₇
    have first := byte_eq_foldl_bit (packed.toList.foldl byte s)
      (byteOf [b₀, b₁, b₂, b₃, b₄, b₅, b₆, b₇]) rest
      (by rw [eight]; exact mode_of_isFinished finished)
    rw [eight] at first
    cases rest with
    | nil => simpa [pack] using not_isFinished_before going
    | cons b bs =>
      have pushed : (packed.push (byteOf [b₀, b₁, b₂, b₃, b₄, b₅, b₆, b₇])).toList.foldl byte s =
          [b₀, b₁, b₂, b₃, b₄, b₅, b₆, b₇].foldl bit (packed.toList.foldl byte s) := by
        rw [Array.toList_push, List.foldl_append]
        exact first
      rw [pushed] at ih
      exact ih (by simp) finished going
  | case2 => exact absurd rfl some
  | case3 packed rest long _ => simpa using not_isFinished_before going

end State

theorem encodes_fixedBlock {ts : List Token} {output : Array UInt8}
    (h : Token.expand? ts #[] = some output) :
    Encodes (pack #[] (fixedBlock ts)).toList output.toList := by
  have finished := foldl_bit_fixedBlock h
  have whole : inflate _ = _ := inflate_fixedBlock h
  refine .of_dropLast ?_ ?_ (State.not_isFinished_pack (by simp [fixedBlock]) ?_ ?_)
  · show (inflate _).isFinished
    rw [whole]
    rfl
  · show (inflate _).output.toList = _
    rw [whole]
  · show ((fixedBlock ts).foldl State.bit {}).isFinished
    rw [finished]
    rfl
  · obtain ⟨codes, known, fixed⟩ := areFixed_fixedCodes
    have last := fixed.literal 256 (by omega)
    show ((fixedBlock ts).dropLast.foldl State.bit {}).isFinished = false
    rw [fixedBlock, List.dropLast_append_of_ne_nil (by decide), List.foldl_append,
      List.foldl_append, foldl_bit_blockType known,
      State.foldl_bit_tokens fixed { final := true } h]
    exact State.not_isFinished_literalCode last _

/-! ### Stored data -/

namespace State

theorem foldl_byte_storedFront (data : Bytes) (b : UInt8) (output : Array UInt8) (final : Bool) :
    data.foldl byte { mode := .stored (data ++ [b]).length, final, output } =
      { mode := .stored 1, final, output := output ++ data } := by
  induction data generalizing output with
  | nil => simp
  | cons c cs ih =>
    have step : byte { mode := .stored (c :: cs ++ [b]).length, final, output } c =
        { mode := .stored (cs ++ [b]).length, final, output := output.push c } := by
      simp [byte, storedByte]
    rw [List.foldl_cons, step, ih]
    simp

theorem not_isFinished_storedBlock (data : Bytes) (small : data.length ≤ blockSize)
    (output : Array UInt8) :
    ((storedBlock true data).dropLast.foldl byte { output }).isFinished = false := by
  have header := foldl_byte_storedHeader data.length small output true
  simp only [List.foldl_append] at header
  rcases data.eq_nil_or_concat with rfl | ⟨data, b, same⟩
  · rfl
  · rw [List.concat_eq_append] at same
    subst same
    have split : (storedBlock true (data ++ [b])).dropLast =
        1 :: Bytes.littleEndian 2 (data ++ [b]).length ++
          Bytes.littleEndian 2 (blockSize - (data ++ [b]).length) ++ data := by
      rw [storedBlock, if_pos rfl, ← List.append_assoc, List.dropLast_concat]
    have begun : byte { output } 1 = { mode := .storedHeader [], final := true, output } :=
      byte_storedType output true
    rw [if_neg (by simp)] at header
    simp only [split, List.cons_append, List.foldl_cons, begun, List.foldl_append, header,
      foldl_byte_storedFront]
    rfl

end State

theorem not_isFinished_store (data : Bytes) (output : Array UInt8) :
    ((store data).dropLast.foldl State.byte { output }).isFinished = false := by
  fun_induction store data generalizing output with
  | case1 data small => exact State.not_isFinished_storedBlock data small output
  | case2 data large ih =>
    have more : store (data.drop blockSize) ≠ [] := by
      unfold store
      split <;> simp [storedBlock]
    rw [List.dropLast_append_of_ne_nil more, List.foldl_append,
      State.foldl_byte_storedBlock _ (List.length_take_le ..) output false]
    exact ih (output ++ data.take blockSize)

theorem encodes_store (data : Bytes) : Encodes (store data) data := by
  have whole : (store data).foldl State.byte {} = _ := inflate_store data
  refine .of_dropLast ?_ ?_ (not_isFinished_store data #[])
  · rw [whole]
    rfl
  · rw [whole]

theorem encodes_compress (data : Bytes) : Encodes (compress data) data := by
  unfold compress
  dsimp only
  split
  · exact encodes_store data
  · exact encodes_fixedBlock (expand?_tokens data.toArray)

/-! ### Compressing by calls -/

namespace Compressor
variable {κ : Type} [Compressor κ]

/-- The compressor has been fed `data`, in whatever pieces, and has handed `out` out so far. -/
inductive Fed : κ → (data out : Bytes) → Prop where
  | start : Fed start [] []
  | call {k : κ} {data out piece : Bytes} {room : Nat} (fed : Fed k data out) (some : 0 < room)
    (shown : piece ≠ []) :
    Fed (step k piece room false).next (data ++ piece.take (step k piece room false).consumed)
      (out ++ (step k piece room false).produced)

/-- Besides, it may have been asked for the end, and has not come to it. -/
inductive Closing : κ → (data out : Bytes) → Prop where
  | begin {k : κ} {data out : Bytes} (fed : Fed k data out) : Closing k data out
  | call {k : κ} {data out : Bytes} {room : Nat} (closing : Closing k data out) (some : 0 < room)
    (going : (step k [] room true).isEnded = false) :
    Closing (step k [] room true).next data (out ++ (step k [] room true).produced)

/-- All that is handed out up to the end is the whole of some compressed data, which inflate to
what was fed. -/
def Faithful (κ : Type) [Compressor κ] : Prop :=
  ∀ {k : κ} {data out : Bytes} {room : Nat}, Closing k data out → 0 < room →
    (step k [] room true).isEnded → Encodes (out ++ (step k [] room true).produced) data

end Compressor

namespace Deflater
open Compressor (Fed Closing)

theorem fed_keeps {d : Deflater} {data out : Bytes} (h : Fed d data out) :
    d.taken.toList = data ∧ d.left = none ∧ out = [] := by
  induction h with
  | start => exact ⟨rfl, rfl, rfl⟩
  | @call d data out piece room fed some shown ih =>
    obtain ⟨rfl, none, rfl⟩ := ih
    refine ⟨?_, none, rfl⟩
    show (d.taken ++ piece).toList = d.taken.toList ++ piece.take piece.length
    rw [List.take_length, Array.toList_appendList]

theorem closing_keeps {d : Deflater} {data out : Bytes} (h : Closing d data out) :
    d.taken.toList = data ∧ out ++ d.left.getD (compress data) = compress data := by
  induction h with
  | begin fed =>
    obtain ⟨rfl, none, rfl⟩ := fed_keeps fed
    exact ⟨rfl, by rw [none]; rfl⟩
  | @call d data out room closing some going ih =>
    obtain ⟨rfl, same⟩ := ih
    have taken : (d.taken ++ ([] : Bytes)).toList = d.taken.toList := by simp
    refine ⟨taken, ?_⟩
    show out ++ (d.left.getD (compress (d.taken ++ ([] : Bytes)).toList)).take room ++
      (d.left.getD (compress (d.taken ++ ([] : Bytes)).toList)).drop room = _
    rw [taken, List.append_assoc, List.take_append_drop, same]

/-- The deflater never loses or invents anything. -/
theorem faithful : Compressor.Faithful Deflater := by
  intro d data out room h some ended
  obtain ⟨rfl, same⟩ := closing_keeps h
  have taken : (d.taken ++ ([] : Bytes)).toList = d.taken.toList := by simp
  have last : (d.left.getD (compress (d.taken ++ ([] : Bytes)).toList)).drop room = [] :=
    List.isEmpty_iff.mp ended
  show Encodes (out ++ (d.left.getD (compress (d.taken ++ ([] : Bytes)).toList)).take room) _
  rw [taken] at last ⊢
  have whole := List.take_append_drop room (d.left.getD (compress d.taken.toList))
  rw [last, List.append_nil] at whole
  rw [whole, same]
  exact encodes_compress d.taken.toList

end Deflater
end WebArchive.Deflate
