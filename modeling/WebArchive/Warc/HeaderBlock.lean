import WebArchive.Options
import WebArchive.Stream.Line
import WebArchive.Warc.Header

/-!
Reading a header block from a stream: a version line, then header lines up to an empty one. Lines
past the limit are read and left out. Main fact: `weight_read_lt`, a block that is read takes
bytes.
-/
namespace WebArchive.Warc

structure HeaderBlock where
  versionLine : Line
  /-- the lines between the version line and the end of the block -/
  lines : List Line
  /-- the empty line at the end was found -/
  isTerminated : Bool

namespace HeaderBlock

def kept (b : HeaderBlock) (most : Nat) : List Line := b.lines.take most

def header (b : HeaderBlock) (mostLines : Nat) (startOffset : Option Nat) : Header :=
  let kept := b.kept mostLines
  { Header.parse b.versionLine.text (kept.map (·.text)) startOffset with
    blockProblems :=
      Diagnostics.invalidIf (b.versionLine.truncated || kept.any (·.truncated)) recordField
          "Header line too long".toList ++
        Diagnostics.invalidIf (kept.length < b.lines.length) recordField
          "Too many header lines".toList ++
        Diagnostics.invalidIf (!b.isTerminated) recordField
          "Header block not terminated".toList }

variable {σ : Type} [Peekable σ]
open Readable (weight)

/-- The lines up to an empty one, behind those taken before (the last one first), and whether
there was an empty one. A line that was cut is not empty. -/
def readLines (most : Nat) (taken : List Line) (s : σ) : Answer σ (List Line × Bool) :=
  match _call : Line.read most s with
  | (.error e, s') => (.error e, s')
  | (.ok none, s') => (.ok (taken.reverse, false), s')
  | (.ok (some line), s') =>
    if line.text = [] ∧ line.truncated = false then (.ok (taken.reverse, true), s')
    else readLines most (line :: taken) s'
termination_by weight s
decreasing_by exact Line.weight_read_lt _call

def read (most : Nat) (s : σ) : Answer σ (Option HeaderBlock) :=
  (Line.read most s).andThen fun first s =>
    match first with
    | none => (.ok none, s)
    | some versionLine =>
      (readLines most [] s).map fun (lines, isTerminated) =>
        some { versionLine, lines, isTerminated }

theorem weight_readLines_le (most : Nat) (taken : List Line) (s : σ) :
    weight (readLines most taken s).2 ≤ weight s := by
  fun_induction readLines most taken s with
  | case1 taken s e s' call => have := Line.weight_read_le most s; rwa [call] at this
  | case2 taken s s' call => have := Line.weight_read_le most s; rwa [call] at this
  | case3 taken s line s' call empty =>
    have := Line.weight_read_le most s; rwa [call] at this
  | case4 taken s line s' call full ih => have := Line.weight_read_lt call; omega

theorem weight_read_le (most : Nat) (s : σ) : weight (read most s).2 ≤ weight s := by
  refine Readable.weight_andThen_le (Line.weight_read_le most s) fun first s' le => ?_
  cases first with
  | none => exact le
  | some line => exact Nat.le_trans (weight_readLines_le most [] s') le

theorem weight_read_lt {most : Nat} {s s' : σ} {block : HeaderBlock}
    (h : read most s = (.ok (some block), s')) : weight s' < weight s := by
  obtain ⟨first, next, called, rest⟩ := Outcome.andThen_eq_ok.mp h
  cases first with
  | none => simp at rest
  | some line =>
    obtain ⟨lines, found, _⟩ := Outcome.map_eq_ok.mp rest
    have lt := Line.weight_read_lt called
    have le := weight_readLines_le most [] next
    rw [found] at le
    simp only at le
    omega

end HeaderBlock
end WebArchive.Warc
