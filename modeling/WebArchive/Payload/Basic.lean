import WebArchive.Diagnostics
import WebArchive.Payload.Entity
import WebArchive.Stream.Bounded

/-!
The content of a record: a window of the declared length, whose bytes are digested as they are
read. It is summed up once, when a read finds its end or when it is closed; closing reads what is
left. Main fact: `close_summary`, a closed payload answers with the summary it has and reads
nothing.
-/
namespace WebArchive

structure Payload.Summary where
  length : Nat
  consumed : Nat
  /-- declared bytes that the stream did not have -/
  unavailable : Nat
  blockDigest : Option Digest.Value
  payloadDigest : Option Digest.Value
  entityOffset : Option Nat
  deriving DecidableEq

structure Payload (σ : Type) where
  window : Bounded σ
  length : Nat
  consumed : Nat := 0
  block : Option Digest.Hasher := none
  entity : Option EntityScan := none
  summary : Option Payload.Summary := none

namespace Payload

namespace Summary

def isTruncated (s : Summary) : Bool := 0 < s.unavailable

/-- The problem that a record has with its content, said about the record as a whole. -/
def diagnostics (s : Summary) (field : String) : Diagnostics :=
  .invalidIf s.isTruncated field "Payload length mismatch".toList

end Summary

variable {σ : Type}

def start (source : σ) (length : Nat) (blockDigest entityDigest : Option Digest.Algorithm) :
    Payload σ :=
  { window := ⟨source, length⟩
    length
    block := blockDigest.map .start
    entity := entityDigest.map .start }

def source (p : Payload σ) : σ := p.window.inner

def remaining (p : Payload σ) : Nat := p.window.remaining

def isClosed (p : Payload σ) : Bool := p.summary.isSome

/-- Counts and digests bytes that came out of the window. -/
def take (p : Payload σ) (bs : Bytes) : Payload σ :=
  { p with
    consumed := p.consumed + bs.length
    block := p.block.map (·.update bs)
    entity := p.entity.map (·.update bs) }

def conclusion (p : Payload σ) : Summary :=
  let found := p.entity.bind (·.finish)
  { length := p.length
    consumed := p.consumed
    unavailable := p.window.remaining
    blockDigest := p.block.map (·.finish)
    payloadDigest := found.map (·.2)
    entityOffset := found.map (·.1) }

def finalize (p : Payload σ) : Payload σ :=
  if p.isClosed then p else { p with summary := some p.conclusion }

variable [Readable σ]

def read (p : Payload σ) (n : Nat) : Answer (Payload σ) Bytes :=
  if p.isClosed ∨ n = 0 then (.ok [], p)
  else match Readable.read p.window n with
    | (.ok [], window) => (.ok [], { p with window }.finalize)
    | (.ok (b :: bs), window) => (.ok (b :: bs), { p with window }.take (b :: bs))
    | (.error e, window) => (.error e, { p with window })

def drain (p : Payload σ) : Answer (Payload σ) Unit :=
  match _call : Readable.readOn p.window 4096 with
  | (.error e, window) => (.error e, { p with window })
  | (.ok [], window) => (.ok (), { p with window })
  | (.ok (b :: bs), window) => drain ({ p with window }.take (b :: bs))
termination_by Readable.weight p.window
decreasing_by exact Readable.weight_readOn_lt _call

/-- Takes what is left and sums up; a payload that is summed up already is not touched. -/
def settle (p : Payload σ) : Answer (Payload σ) Unit :=
  if p.isClosed then (.ok (), p)
  else match p.drain with
    | (.ok (), p') => (.ok (), p'.finalize)
    | (.error e, p') => (.error e, p')

def close (p : Payload σ) : Answer (Payload σ) Summary :=
  p.settle.andThen fun _ p =>
    match p.summary with
    | some summary => (.ok summary, p)
    | none => (.error .unfinalized, p)

omit [Readable σ] in
@[simp] theorem window_take (p : Payload σ) (bs : Bytes) : (p.take bs).window = p.window := rfl

omit [Readable σ] in
@[simp] theorem window_finalize (p : Payload σ) : p.finalize.window = p.window := by
  unfold finalize
  split <;> rfl

theorem close_summary {p : Payload σ} {s : Summary} (h : p.summary = some s) :
    p.close = (.ok s, p) := by
  simp [close, settle, isClosed, h, Outcome.andThen]

open Readable (weight) in
theorem weight_drain_le (p : Payload σ) : weight p.drain.2.window ≤ weight p.window := by
  fun_induction drain p with
  | case1 p e window call => exact (Readable.weight_readOn_error call).1
  | case2 p window call => have := Readable.weight_readOn call; simp at this; exact this
  | case3 p b bs window call ih =>
    have := Readable.weight_readOn_lt call
    simp only [window_take] at ih
    omega

open Readable (weight) in
theorem weight_settle_le (p : Payload σ) : weight p.settle.2.window ≤ weight p.window := by
  have drained := weight_drain_le p
  unfold settle
  split
  · exact Nat.le_refl _
  · split <;> rename_i call <;> rw [call] at drained
    · rw [window_finalize]; exact drained
    · exact drained

theorem window_close (p : Payload σ) : p.close.2.window = p.settle.2.window := by
  rcases settled : p.settle with ⟨e | _, p'⟩ <;> simp only [close, settled, Outcome.andThen]
  split <;> rfl

open Readable (weight) in
theorem weight_close_le (p : Payload σ) : weight p.close.2.window ≤ weight p.window := by
  rw [window_close]
  exact weight_settle_le p

instance : Readable (Payload σ) where
  read := read
  weight p := Readable.weight p.window
  length_read := by
    intro p n bs p' h
    unfold read at h
    split at h
    · simp at h; simp [h.1]
    · split at h <;> simp at h
      · simp [h.1]
      · rename_i call
        rw [← h.1]; exact Readable.length_read call
  weight_read := by
    intro p n bs p' h
    unfold read at h
    split at h
    · simp at h; simp [h.1, h.2]
    · split at h <;> simp at h
      · rename_i call
        have := Readable.weight_read call
        rw [h.1, ← h.2]; simpa using this
      · rename_i call
        have := Readable.weight_read call
        rw [← h.1, ← h.2]; simpa using this
  weight_error := by
    intro p n e p' h
    unfold read at h
    split at h
    · simp at h
    · split at h <;> simp at h
      rename_i call
      rw [← h.2]; exact Readable.weight_error call
  weight_interrupted := by
    intro p n e p' h again
    unfold read at h
    split at h
    · simp at h
    · split at h <;> simp at h
      rename_i call
      rw [← h.2]; exact Readable.weight_interrupted call (h.1 ▸ again)

end Payload
end WebArchive
