import WebArchive.Deflate.Compress

/-!
Compressing by calls: a call is shown some input, takes as much of it as it likes and hands out a
limited number of bytes. A call that neither takes input nor comes to the end uses up some of the
weight of the compressor, so the data are brought to an end.
-/
namespace WebArchive.Deflate

structure Squeeze (κ : Type) where
  consumed : Nat
  produced : Bytes
  /-- the compressed data are complete -/
  isEnded : Bool
  next : κ

class Compressor (κ : Type) where
  start : κ
  /-- One call with `input` in sight and room for `room` bytes; a `last` call has no more input
  behind it and asks for the end of the compressed data. -/
  step : κ → (input : Bytes) → (room : Nat) → (last : Bool) → Squeeze κ
  weight : κ → Nat
  consumed_le : ∀ {k input room last}, (step k input room last).consumed ≤ input.length
  length_le : ∀ {k input room last}, (step k input room last).produced.length ≤ room
  weight_step : ∀ {k input room last}, 0 < room → (step k input room last).consumed = 0 →
    (if last then (step k input room last).isEnded = false else input ≠ []) →
    weight (step k input room last).next < weight k

/-- Takes whatever it is shown, and compresses it as a whole when a last call comes. -/
structure Deflater where
  taken : Array UInt8 := #[]
  /-- compressed data for which there was no room yet -/
  left : Option Bytes := none

namespace Deflater

def step (d : Deflater) (input : Bytes) (room : Nat) (last : Bool) : Squeeze Deflater :=
  let taken := d.taken ++ input
  if last then
    let all := d.left.getD (compress taken.toList)
    ⟨input.length, all.take room, (all.drop room).isEmpty, ⟨taken, some (all.drop room)⟩⟩
  else ⟨input.length, [], false, ⟨taken, d.left⟩⟩

def weight (d : Deflater) : Nat :=
  match d.left with
  | some left => left.length
  | none => (compress d.taken.toList).length + 1

theorem weight_step {d : Deflater} {input : Bytes} {room : Nat} {last : Bool} (some : 0 < room)
    (none : (d.step input room last).consumed = 0)
    (going : if last then (d.step input room last).isEnded = false else input ≠ []) :
    weight (d.step input room last).next < weight d := by
  have empty : input = [] := by
    cases last <;> exact List.eq_nil_of_length_eq_zero none
  subst empty
  cases last with
  | false => exact absurd rfl going
  | true =>
    obtain ⟨taken, left⟩ := d
    cases left with
    | none =>
      have same : taken ++ ([] : Bytes) = taken := by simp
      simp only [step, weight, List.length_drop, Option.getD_none, same, if_true]
      omega
    | some left =>
      have more := List.length_pos_iff.mpr (List.isEmpty_eq_false_iff.mp going)
      simp only [step, weight, List.length_drop, Option.getD_some, if_true] at more ⊢
      omega

instance : Compressor Deflater where
  start := {}
  step := step
  weight := weight
  consumed_le := by
    intro d input room last
    cases last <;> exact Nat.le_refl _
  length_le := by
    intro d input room last
    cases last
    · exact Nat.zero_le _
    · exact List.length_take_le ..
  weight_step := weight_step

end Deflater
end WebArchive.Deflate
