import WebArchive.Stream.Readable

/-!
A window over the next `remaining` bytes of a stream. Once it is used up the stream under it is
not asked any more. A recording window keeps a copy of every byte that it hands out.
-/
namespace WebArchive

structure Bounded (σ : Type) where
  inner : σ
  remaining : Nat

namespace Bounded
variable {σ : Type} [Readable σ]

def read (w : Bounded σ) (n : Nat) : Answer (Bounded σ) Bytes :=
  if w.remaining = 0 ∨ n = 0 then (.ok [], w)
  else match Readable.read w.inner (min n w.remaining) with
    | (.ok bs, inner) => (.ok bs, ⟨inner, w.remaining - bs.length⟩)
    | (.error e, inner) => (.error e, { w with inner })

theorem read_ok {w w' : Bounded σ} {n : Nat} {bs : Bytes} (h : read w n = (.ok bs, w')) :
    (bs = [] ∧ w' = w) ∨ ∃ inner, Readable.read w.inner (min n w.remaining) = (.ok bs, inner) ∧
      w' = ⟨inner, w.remaining - bs.length⟩ := by
  unfold read at h
  split at h
  · simp only [Prod.mk.injEq, Except.ok.injEq] at h
    exact Or.inl ⟨h.1.symm, h.2.symm⟩
  · split at h <;> simp only [Prod.mk.injEq, Except.ok.injEq, reduceCtorEq, false_and] at h
    rename_i inner call
    obtain ⟨rfl, rfl⟩ := h
    exact Or.inr ⟨inner, call, rfl⟩

theorem read_error {w w' : Bounded σ} {n : Nat} {e : StreamError}
    (h : read w n = (.error e, w')) :
    Readable.read w.inner (min n w.remaining) = (.error e, w'.inner) := by
  unfold read at h
  split at h
  · simp at h
  · split at h <;> simp only [Prod.mk.injEq, Except.error.injEq, reduceCtorEq, false_and] at h
    rename_i call
    obtain ⟨rfl, rfl⟩ := h
    exact call

theorem length_read {w w' : Bounded σ} {n : Nat} {bs : Bytes} (h : read w n = (.ok bs, w')) :
    bs.length ≤ n := by
  rcases read_ok h with ⟨rfl, _⟩ | ⟨inner, call, _⟩
  · exact Nat.zero_le n
  · exact Nat.le_trans (Readable.length_read call) (Nat.min_le_left ..)

theorem weight_read {w w' : Bounded σ} {n : Nat} {bs : Bytes} (h : read w n = (.ok bs, w')) :
    Readable.weight w'.inner + bs.length ≤ Readable.weight w.inner := by
  rcases read_ok h with ⟨rfl, rfl⟩ | ⟨inner, call, rfl⟩
  · exact Nat.le_refl _
  · exact Readable.weight_read call

instance : Readable (Bounded σ) where
  read := read
  weight w := Readable.weight w.inner
  length_read := length_read
  weight_read := weight_read
  weight_error h := Readable.weight_error (read_error h)
  weight_interrupted h again := Readable.weight_interrupted (read_error h) again

/-- A window never goes back. -/
def reset (w : Bounded σ) : Answer (Bounded σ) Unit := (.error .cannotRewind, w)

end Bounded

structure Recorded (σ : Type) where
  window : Bounded σ
  recording : Array UInt8 := #[]

namespace Recorded
variable {σ : Type} [Readable σ]

def read (w : Recorded σ) (n : Nat) : Answer (Recorded σ) Bytes :=
  match Bounded.read w.window n with
  | (.ok bs, window) => (.ok bs, ⟨window, w.recording ++ bs⟩)
  | (.error e, window) => (.error e, { w with window })

instance : Readable (Recorded σ) where
  read := read
  weight w := Readable.weight w.window
  length_read := by
    intro w n bs w' h
    unfold read at h
    split at h <;> simp at h
    rename_i call
    rw [← h.1]; exact Readable.length_read (σ := Bounded σ) call
  weight_read := by
    intro w n bs w' h
    unfold read at h
    split at h <;> simp at h
    rename_i call
    rw [← h.1, ← h.2]; exact Readable.weight_read (σ := Bounded σ) call
  weight_error := by
    intro w n e w' h
    unfold read at h
    split at h <;> simp at h
    rename_i call
    rw [← h.2]; exact Readable.weight_error (σ := Bounded σ) call
  weight_interrupted := by
    intro w n e w' h again
    unfold read at h
    split at h <;> simp at h
    rename_i call
    rw [← h.2]; exact Readable.weight_interrupted (σ := Bounded σ) call (h.1 ▸ again)

def remaining (w : Recorded σ) : Nat := w.window.remaining

def reset (w : Recorded σ) : Answer (Recorded σ) Unit := (.error .cannotRewind, w)

end Recorded
end WebArchive
