import WebArchive.Stream.Source

/-!
A source with the position reached in it: the number of bytes taken, plus the position at which
counting began.
-/
namespace WebArchive

structure Cursor where
  source : Source
  position : Nat := 0

namespace Cursor

def read (c : Cursor) (n : Nat) : Answer Cursor Bytes :=
  match c.source.read n with
  | (.ok bs, source) => (.ok bs, ⟨source, c.position + bs.length⟩)
  | (.error e, source) => (.error e, { c with source })

def fill (c : Cursor) : Answer Cursor Bytes :=
  match c.source.fill with
  | (answer, source) => (answer, { c with source })

def consume (c : Cursor) (n : Nat) : Cursor := ⟨c.source.consume n, c.position + n⟩

instance : Peekable Cursor where
  read := read
  weight c := c.source.weight
  fill := fill
  consume := consume
  length_read := by
    intro c n bs c' h
    unfold read at h
    split at h <;> simp at h
    rename_i call
    rw [← h.1]; exact Readable.length_read (σ := Source) call
  weight_read := by
    intro c n bs c' h
    unfold read at h
    split at h <;> simp at h
    rename_i call
    rw [← h.1, ← h.2]; exact Readable.weight_read (σ := Source) call
  weight_error := by
    intro c n e c' h
    unfold read at h
    split at h <;> simp at h
    rename_i call
    rw [← h.2]; exact Readable.weight_error (σ := Source) call
  weight_interrupted := by
    intro c n e c' h again
    unfold read at h
    split at h <;> simp at h
    rename_i call
    rw [← h.2]; exact Readable.weight_interrupted (σ := Source) call (h.1 ▸ again)
  weight_fill := by
    intro c bs c' h
    simp only [fill, Prod.mk.injEq] at h
    rw [← h.2]
    exact Peekable.weight_fill (σ := Source) (Prod.ext h.1 rfl)
  weight_consume := by
    intro c bs c' k h bound
    simp only [fill, Prod.mk.injEq] at h
    rw [← h.2]
    exact Peekable.weight_consume (σ := Source) (Prod.ext h.1 rfl) bound
  weight_fill_error := by
    intro c e c' h
    simp only [fill, Prod.mk.injEq] at h
    rw [← h.2]
    exact Peekable.weight_fill_error (σ := Source) (Prod.ext h.1 rfl)
  weight_fill_interrupted := by
    intro c e c' h again
    simp only [fill, Prod.mk.injEq] at h
    rw [← h.2]
    exact Peekable.weight_fill_interrupted (σ := Source) (Prod.ext h.1 rfl) again

/-- Takes bytes until the position is `target` or the source has ended; the number taken. A
target that is already passed is no error. -/
def skipTo (c : Cursor) (target : Nat) : Answer Cursor Nat :=
  if target ≤ c.position then (.ok 0, c)
  else match _call : Peekable.fillOn c with
    | (.error e, c') => (.error e, c')
    | (.ok [], c') => (.ok 0, c')
    | (.ok (b :: bs), c') =>
      let step := min (b :: bs).length (target - c.position)
      match skipTo (Peekable.consume c' step) target with
      | (.ok more, c'') => (.ok (step + more), c'')
      | (.error e, c'') => (.error e, c'')
termination_by c.source.weight
decreasing_by
  exact Peekable.weight_fillOn_lt (σ := Cursor) _call (Nat.min_le_left _ _)
    (by simp only [List.length_cons]; omega)

theorem weight_skipTo_le (c : Cursor) (target : Nat) :
    Readable.weight (c.skipTo target).2 ≤ Readable.weight c := by
  fun_induction skipTo c target with
  | case1 => exact Nat.le_refl _
  | case2 c past e next call => exact Peekable.weight_fillOn_error call
  | case3 c past next call => have := Peekable.weight_fillOn_le c; rwa [call] at this
  | case4 c past b bs next call step more last rest ih =>
    have := Peekable.weight_fillOn call (k := step) (Nat.min_le_left _ _)
    rw [rest] at ih; simp only at *; omega
  | case5 c past b bs next call step e last rest ih =>
    have := Peekable.weight_fillOn call (k := step) (Nat.min_le_left _ _)
    rw [rest] at ih; simp only at *; omega

/-- Whether the source has ended; an interruption is not retried here. -/
def isAtEnd (c : Cursor) : Answer Cursor Bool :=
  match c.fill with
  | (.ok bs, c') => (.ok bs.isEmpty, c')
  | (.error e, c') => (.error e, c')

end Cursor
end WebArchive
