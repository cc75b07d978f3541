import WebArchive.Bytes
import WebArchive.Stream.Readable

/-!
Bytes that were taken from a stream ahead of time, put back in front of it. A read never goes
across the seam.
-/
namespace WebArchive

structure Chained (σ : Type) where
  front : Bytes
  inner : σ

namespace Chained
variable {σ : Type} [Readable σ]

def read (s : Chained σ) (n : Nat) : Answer (Chained σ) Bytes :=
  if s.front ≠ [] then (.ok (s.front.take n), { s with front := s.front.drop n })
  else match Readable.read s.inner n with
    | (.ok bs, inner) => (.ok bs, { s with inner })
    | (.error e, inner) => (.error e, { s with inner })

theorem read_ok {s s' : Chained σ} {n : Nat} {bs : Bytes} (h : read s n = (.ok bs, s')) :
    (s.front ≠ [] ∧ bs = s.front.take n ∧ s' = { s with front := s.front.drop n }) ∨
      ∃ inner, s.front = [] ∧ Readable.read s.inner n = (.ok bs, inner) ∧
        s' = { s with inner } := by
  unfold read at h
  split at h
  · rename_i some
    simp only [Prod.mk.injEq, Except.ok.injEq] at h
    exact Or.inl ⟨some, h.1.symm, h.2.symm⟩
  · rename_i none
    split at h <;> simp only [Prod.mk.injEq, Except.ok.injEq, reduceCtorEq, false_and] at h
    rename_i inner call
    obtain ⟨rfl, rfl⟩ := h
    exact Or.inr ⟨inner, Classical.not_not.mp none, call, rfl⟩

theorem read_error {s s' : Chained σ} {n : Nat} {e : StreamError}
    (h : read s n = (.error e, s')) :
    ∃ inner, s.front = [] ∧ Readable.read s.inner n = (.error e, inner) ∧
      s' = { s with inner } := by
  unfold read at h
  split at h
  · simp at h
  · rename_i none
    split at h <;> simp only [Prod.mk.injEq, Except.error.injEq, reduceCtorEq, false_and] at h
    rename_i inner call
    obtain ⟨rfl, rfl⟩ := h
    exact ⟨inner, Classical.not_not.mp none, call, rfl⟩

def weight (s : Chained σ) : Nat := s.front.length + Readable.weight s.inner

instance : Readable (Chained σ) where
  read := read
  weight := weight
  length_read := by
    intro s n bs s' h
    rcases read_ok h with ⟨_, rfl, _⟩ | ⟨inner, _, call, _⟩
    · exact List.length_take_le ..
    · exact Readable.length_read call
  weight_read := by
    intro s n bs s' h
    rcases read_ok h with ⟨_, rfl, rfl⟩ | ⟨inner, none, call, rfl⟩
    · simp only [weight, List.length_drop, List.length_take]; omega
    · have := Readable.weight_read call
      simp only [weight]; omega
  weight_error := by
    intro s n e s' h
    obtain ⟨inner, _, call, rfl⟩ := read_error h
    exact Nat.add_le_add_left (Readable.weight_error call) _
  weight_interrupted := by
    intro s n e s' h again
    obtain ⟨inner, _, call, rfl⟩ := read_error h
    exact Nat.add_lt_add_left (Readable.weight_interrupted call again) _

end Chained
end WebArchive
