import WebArchive.Stream.Readable
import WebArchive.Text.Encoding

/-!
Header lines. A line ends with a line feed, a carriage return in front of it is dropped, and at
most a given number of its bytes is kept. Main facts: `Kept.push_append`, what is kept of a line
does not depend on the pieces in which it comes, and `weight_read_lt`, a line that is read takes
bytes.
-/
namespace WebArchive

/-- A line as read: its text, and whether bytes of it were dropped. -/
structure Line where
  text : Text
  truncated : Bool
  deriving DecidableEq

namespace Line

def lineFeed : UInt8 := 10

def carriageReturn : UInt8 := 13

structure Kept where
  bytes : Bytes := []
  truncated : Bool := false

namespace Kept

def push (most : Nat) (k : Kept) (content : Bytes) : Kept :=
  let room := most - k.bytes.length
  ⟨k.bytes ++ content.take room, k.truncated || room < content.length⟩

theorem push_append (most : Nat) (k : Kept) (a b : Bytes) :
    (k.push most a).push most b = k.push most (a ++ b) := by
  simp only [push, List.length_append, List.length_take, List.append_assoc, List.take_append,
    Kept.mk.injEq, List.append_cancel_left_eq]
  refine ⟨congrArg (List.take · b) (by omega), ?_⟩
  rw [Bool.eq_iff_iff, Bool.or_assoc]
  cases k.truncated
  · simp; omega
  · simp

/-- The kept bytes without one carriage return at their end, as text. -/
def toLine (k : Kept) : Line :=
  let bytes := if k.bytes.getLast? = some carriageReturn then k.bytes.dropLast else k.bytes
  ⟨Text.ofLineBytes bytes, k.truncated⟩

end Kept

variable {σ : Type} [Peekable σ]

/-- Adds the rest of the current line to what is kept of it; nothing is kept before its first
byte. -/
def readRest (most : Nat) (kept : Option Kept) (s : σ) : Answer σ (Option Kept) :=
  match _call : Peekable.fillOn s with
  | (.error e, s') => (.error e, s')
  | (.ok [], s') => (.ok kept, s')
  | (.ok (b :: bs), s') =>
    let content := (b :: bs).takeWhile (· ≠ lineFeed)
    let kept := (kept.getD {}).push most content
    if content.length < bs.length + 1 then
      (.ok (some kept), Peekable.consume s' (content.length + 1))
    else readRest most (some kept) (Peekable.consume s' (bs.length + 1))
termination_by Readable.weight s
decreasing_by exact Peekable.weight_fillOn_lt _call (by simp) (by omega)

/-- The next line, of which at most `most` bytes are kept; none at the end of the stream. -/
def read (most : Nat) (s : σ) : Answer σ (Option Line) :=
  (readRest most none s).map (·.map Kept.toLine)

/-- Takes the carriage returns and line feeds that come next; their number. -/
def skipBlank (s : σ) : Answer σ Nat :=
  match _call : Peekable.fillOn s with
  | (.error e, s') => (.error e, s')
  | (.ok [], s') => (.ok 0, s')
  | (.ok (b :: bs), s') =>
    let blank := (b :: bs).takeWhile fun c => c = carriageReturn || c = lineFeed
    if blank.length < bs.length + 1 then (.ok blank.length, Peekable.consume s' blank.length)
    else match skipBlank (Peekable.consume s' (bs.length + 1)) with
      | (.ok more, s'') => (.ok (blank.length + more), s'')
      | (.error e, s'') => (.error e, s'')
termination_by Readable.weight s
decreasing_by exact Peekable.weight_fillOn_lt _call (by simp) (by omega)

/-! ### What reading a line takes -/

open Readable (weight)

theorem weight_readRest_le (most : Nat) (kept : Option Kept) (s : σ) :
    weight (readRest most kept s).2 ≤ weight s := by
  fun_induction readRest most kept s with
  | case1 kept s e next call => exact Peekable.weight_fillOn_error call
  | case2 kept s next call => have := Peekable.weight_fillOn_le s; rwa [call] at this
  | case3 kept s b bs next call content more found =>
    have := Peekable.weight_fillOn call (k := content.length + 1)
      (by simp only [List.length_cons]; omega)
    simp only; omega
  | case4 kept s b bs next call content more absent ih =>
    have := Peekable.weight_fillOn call (k := bs.length + 1) (by simp)
    omega

theorem weight_read_le (most : Nat) (s : σ) : weight (read most s).2 ≤ weight s :=
  weight_readRest_le most none s

theorem weight_read_lt {most : Nat} {s s' : σ} {line : Line}
    (h : read most s = (.ok (some line), s')) : weight s' < weight s := by
  obtain ⟨kept, called, some⟩ := Outcome.map_eq_ok.mp h
  obtain ⟨kept, rfl, _⟩ := Option.map_eq_some_iff.mp some
  rw [readRest] at called
  split at called
  · simp at called
  · simp at called
  · rename_i b bs next call
    dsimp only at called
    split at called
    · simp only [Prod.mk.injEq] at called
      rw [← called.2]
      exact Peekable.weight_fillOn_lt call (by simp only [List.length_cons]; omega) (by omega)
    · have first := Peekable.weight_fillOn call (k := bs.length + 1) (by simp)
      have rest := weight_readRest_le most
        (.some (((none : Option Kept).getD {}).push most ((b :: bs).takeWhile (· ≠ lineFeed))))
        (Peekable.consume next (bs.length + 1))
      rw [called] at rest
      simp only at rest
      omega

theorem weight_skipBlank_le (s : σ) : weight (skipBlank s).2 ≤ weight s := by
  fun_induction skipBlank s with
  | case1 s e next call => exact Peekable.weight_fillOn_error call
  | case2 s next call => have := Peekable.weight_fillOn_le s; rwa [call] at this
  | case3 s b bs next call blank found =>
    have := Peekable.weight_fillOn call (k := blank.length) (by simp only [List.length_cons]; omega)
    simp only; omega
  | case4 s b bs next call blank absent more last rest ih =>
    have := Peekable.weight_fillOn call (k := bs.length + 1) (by simp)
    rw [rest] at ih; simp only at *; omega
  | case5 s b bs next call blank absent e last rest ih =>
    have := Peekable.weight_fillOn call (k := bs.length + 1) (by simp)
    rw [rest] at ih; simp only at *; omega

end Line
end WebArchive
