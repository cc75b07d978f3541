import WebArchive.Bytes
import WebArchive.Stream.Readable

/-!
Where bytes are written to. A write is taken as a whole or refused as a whole.
-/
namespace WebArchive

structure Sink where
  bytes : Bytes := []
  /-- the most bytes it holds, and the error of a write that does not fit -/
  limit : Option (Nat × StreamError) := none

namespace Sink

def write (s : Sink) (bs : Bytes) : Answer Sink Unit :=
  let written := (.ok (), { s with bytes := s.bytes ++ bs })
  match s.limit with
  | some (most, e) => if most < s.bytes.length + bs.length then (.error e, s) else written
  | none => written

theorem bytes_write {s s' : Sink} {bs : Bytes} (h : s.write bs = (.ok (), s')) :
    s'.bytes = s.bytes ++ bs := by
  unfold write at h
  dsimp only at h
  split at h
  · split at h
    · simp at h
    · simp only [Prod.mk.injEq, true_and] at h; rw [← h]
  · simp only [Prod.mk.injEq, true_and] at h; rw [← h]

theorem write_error {s s' : Sink} {bs : Bytes} {e : StreamError} (h : s.write bs = (.error e, s')) :
    s' = s := by
  unfold write at h
  dsimp only at h
  split at h
  · split at h
    · simp only [Prod.mk.injEq] at h; exact h.2.symm
    · simp at h
  · simp at h

end Sink
end WebArchive
