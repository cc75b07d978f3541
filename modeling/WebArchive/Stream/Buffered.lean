import WebArchive.Stream.Readable

/-!
A stream with a buffer in front, so that bytes can be looked at before they are taken. The
buffer is filled by one read when it is empty; a large read on an empty buffer goes past it.
-/
namespace WebArchive

structure Buffered (σ : Type) where
  inner : σ
  buffer : Bytes := []

namespace Buffered
variable {σ : Type} [Readable σ]

def capacity : Nat := 8192

def fill (s : Buffered σ) : Answer (Buffered σ) Bytes :=
  if s.buffer ≠ [] then (.ok s.buffer, s)
  else match Readable.read s.inner capacity with
    | (.ok bs, inner) => (.ok bs, ⟨inner, bs⟩)
    | (.error e, inner) => (.error e, { s with inner })

def consume (s : Buffered σ) (n : Nat) : Buffered σ := { s with buffer := s.buffer.drop n }

def read (s : Buffered σ) (n : Nat) : Answer (Buffered σ) Bytes :=
  if s.buffer = [] ∧ capacity ≤ n then
    match Readable.read s.inner n with
    | (.ok bs, inner) => (.ok bs, { s with inner })
    | (.error e, inner) => (.error e, { s with inner })
  else if n = 0 then (.ok [], s)
  else match s.fill with
    | (.ok bs, s') => (.ok (bs.take n), s'.consume n)
    | (.error e, s') => (.error e, s')

def weight (s : Buffered σ) : Nat := s.buffer.length + Readable.weight s.inner

theorem weight_fill_ok {s s' : Buffered σ} {bs : Bytes} (h : fill s = (.ok bs, s')) :
    weight s' ≤ weight s ∧ s'.buffer = bs := by
  unfold fill at h
  split at h
  · simp at h; simp [← h.1, ← h.2]
  · rename_i empty
    split at h <;> simp at h
    rename_i call
    have := Readable.weight_read call
    simp only [ne_eq, Classical.not_not] at empty
    obtain ⟨rfl, rfl⟩ := h
    simp [weight, empty]; omega

theorem weight_fill_error {s s' : Buffered σ} {e : StreamError} (h : fill s = (.error e, s')) :
    weight s' ≤ weight s ∧ (e.isInterrupted → weight s' < weight s) := by
  unfold fill at h
  split at h
  · simp at h
  · split at h <;> simp at h
    rename_i call
    obtain ⟨rfl, rfl⟩ := h
    have := Readable.weight_error call
    exact ⟨by simp [weight]; omega, fun again => by
      have := Readable.weight_interrupted call again
      simp [weight]; omega⟩

theorem weight_consume {s s' : Buffered σ} {bs : Bytes} {k : Nat} (h : fill s = (.ok bs, s'))
    (bound : k ≤ bs.length) : weight (consume s' k) + k ≤ weight s := by
  obtain ⟨le, rfl⟩ := weight_fill_ok h
  simp only [weight, consume, List.length_drop] at *
  omega

theorem weight_consume_take {s s' : Buffered σ} {bs : Bytes} {n : Nat} (h : fill s = (.ok bs, s')) :
    weight (consume s' n) + (bs.take n).length ≤ weight s := by
  obtain ⟨le, rfl⟩ := weight_fill_ok h
  simp only [weight, consume, List.length_drop, List.length_take] at *
  omega

theorem length_read {s s' : Buffered σ} {n : Nat} {bs : Bytes} (h : read s n = (.ok bs, s')) :
    bs.length ≤ n := by
  unfold read at h
  split at h
  · split at h <;> simp only [Prod.mk.injEq, Except.ok.injEq, reduceCtorEq, false_and] at h
    rename_i call
    rw [← h.1]; exact Readable.length_read call
  · split at h
    · simp only [Prod.mk.injEq, Except.ok.injEq] at h
      rw [← h.1]; exact Nat.zero_le n
    · split at h <;> simp only [Prod.mk.injEq, Except.ok.injEq, reduceCtorEq, false_and] at h
      rw [← h.1]; exact List.length_take_le ..

theorem weight_read {s s' : Buffered σ} {n : Nat} {bs : Bytes} (h : read s n = (.ok bs, s')) :
    weight s' + bs.length ≤ weight s := by
  unfold read at h
  split at h
  · split at h <;> simp only [Prod.mk.injEq, Except.ok.injEq, reduceCtorEq, false_and] at h
    rename_i call
    have := Readable.weight_read call
    rw [← h.1, ← h.2]; simp only [weight]; omega
  · split at h
    · simp only [Prod.mk.injEq, Except.ok.injEq] at h
      rw [← h.1, ← h.2]; exact Nat.le_refl _
    · split at h <;> simp only [Prod.mk.injEq, Except.ok.injEq, reduceCtorEq, false_and] at h
      rename_i filled
      rw [← h.1, ← h.2]; exact weight_consume_take filled

theorem weight_read_error {s s' : Buffered σ} {n : Nat} {e : StreamError}
    (h : read s n = (.error e, s')) :
    weight s' ≤ weight s ∧ (e.isInterrupted → weight s' < weight s) := by
  unfold read at h
  split at h
  · split at h <;> simp only [Prod.mk.injEq, Except.error.injEq, reduceCtorEq, false_and] at h
    rename_i call
    obtain ⟨rfl, rfl⟩ := h
    have := Readable.weight_error call
    refine ⟨by simp only [weight]; omega, fun again => ?_⟩
    have := Readable.weight_interrupted call again
    simp only [weight]; omega
  · split at h
    · simp at h
    · split at h <;> simp only [Prod.mk.injEq, Except.error.injEq, reduceCtorEq, false_and] at h
      rename_i filled
      obtain ⟨rfl, rfl⟩ := h
      exact weight_fill_error filled

instance : Peekable (Buffered σ) where
  read := read
  weight := weight
  fill := fill
  consume := consume
  length_read := length_read
  weight_read := weight_read
  weight_error h := (weight_read_error h).1
  weight_interrupted h again := (weight_read_error h).2 again
  weight_fill h := (weight_fill_ok h).1
  weight_consume := weight_consume
  weight_fill_error h := (weight_fill_error h).1
  weight_fill_interrupted h again := (weight_fill_error h).2 again

end Buffered
end WebArchive
